import Mathlib.Init

/-! Lists gone through by a computation that may fail: it does not fail if no element
makes it fail, and if it did not, what each element came to is known. -/

namespace Halon.Library
open List
variable {ε α β : Type} {f : α → Except ε β} {xs : List α}

theorem ok_bind (a : α) (f : α → Except ε β) : (Except.ok a >>= f) = f a := rfl

theorem error_bind (e : ε) (f : α → Except ε β) : (Except.error e >>= f) = .error e := rfl

theorem bind_ok {f : α → Except ε β} (done : (x >>= f) = .ok b) : ∃ a, x = .ok a ∧ f a = .ok b := by
  cases x with
  | error => cases done
  | ok a => exact ⟨a, rfl, done⟩

theorem exists_ok {P : α → Prop} [DecidablePred P] {x : Except ε α} (computed : x.toOption.any (fun a => P a) = true) :
    ∃ a, x = .ok a ∧ P a := by
  cases x with
  | error => cases computed
  | ok a => exact ⟨a, rfl, of_decide_eq_true computed⟩

theorem mapM_ok {property : β → Prop} (each : ∀ x ∈ xs, ∃ y, f x = .ok y ∧ property y) :
    ∃ ys, xs.mapM f = .ok ys ∧ ∀ y ∈ ys, property y := by
  induction xs with
  | nil => exact ⟨[], rfl, nofun⟩
  | cons x xs ih =>
    obtain ⟨y, first, good⟩ := each x mem_cons_self
    obtain ⟨ys, rest, all⟩ := ih fun z member => each z (mem_cons_of_mem _ member)
    refine ⟨y :: ys, ?_, ?_⟩
    · rw [mapM_cons, first, ok_bind, rest]
      rfl
    · intro z member
      rcases mem_cons.mp member with rfl | later
      · exact good
      · exact all z later

theorem mapM_eq_map (each : ∀ x ∈ xs, f x = .ok (g x)) : xs.mapM f = .ok (xs.map g) := by
  induction xs with
  | nil => rfl
  | cons x xs ih =>
    rw [mapM_cons, each x mem_cons_self, ok_bind, ih fun z member => each z (mem_cons_of_mem _ member)]
    rfl

theorem ok_of_mapM (all : xs.mapM f = .ok ys) : ∀ x ∈ xs, ∃ y, f x = .ok y := by
  induction xs generalizing ys with
  | nil => nofun
  | cons x xs ih =>
    rw [mapM_cons] at all
    obtain ⟨y, first, all⟩ := bind_ok all
    obtain ⟨zs, rest, -⟩ := bind_ok all
    intro z member
    rcases mem_cons.mp member with rfl | later
    · exact ⟨y, first⟩
    · exact ih rest z later

theorem error_of_mapM (failed : xs.mapM f = .error e) : ∃ x ∈ xs, f x = .error e := by
  induction xs with
  | nil => cases failed
  | cons x xs ih =>
    rw [mapM_cons] at failed
    cases first : f x with
    | error =>
      rw [first] at failed
      cases failed
      exact ⟨x, mem_cons_self, first⟩
    | ok =>
      rw [first, ok_bind] at failed
      cases rest : xs.mapM f with
      | error =>
        rw [rest] at failed
        cases failed
        obtain ⟨z, member, found⟩ := ih rest
        exact ⟨z, mem_cons_of_mem _ member, found⟩
      | ok =>
        rw [rest] at failed
        cases failed

/-- What a computation came to, or a default if it failed. -/
def okOr (default : β) : Except ε β → β
  | .ok y => y
  | .error _ => default

theorem flatMap_of_mapM {γ : Type} {g : β → List γ} (all : xs.mapM f = .ok ys) :
    ys.flatMap g = xs.flatMap fun x => okOr [] ((f x).map g) := by
  induction xs generalizing ys with
  | nil =>
    cases all
    rfl
  | cons x xs ih =>
    rw [mapM_cons] at all
    obtain ⟨y, first, all⟩ := bind_ok all
    obtain ⟨zs, rest, all⟩ := bind_ok all
    cases all
    rw [flatMap_cons, flatMap_cons, ih rest, first]
    rfl

theorem mem_of_mapM (all : xs.mapM f = .ok ys) (member : y ∈ ys) : ∃ x ∈ xs, f x = .ok y := by
  induction xs generalizing ys with
  | nil =>
    cases all
    cases member
  | cons x xs ih =>
    rw [mapM_cons] at all
    obtain ⟨z, first, all⟩ := bind_ok all
    obtain ⟨zs, rest, all⟩ := bind_ok all
    cases all
    rcases mem_cons.mp member with rfl | later
    · exact ⟨x, mem_cons_self, first⟩
    · obtain ⟨x', inside, found⟩ := ih rest later
      exact ⟨x', mem_cons_of_mem _ inside, found⟩

/-- A loop: the invariant is about the state and what is left of the list. -/
theorem foldlM_invariant {σ : Type} {step : σ → α → Except ε σ} {kept : List α → σ → Prop} {s s'} (initial : kept xs s)
    (preserved : ∀ x xs s s', kept (x :: xs) s → step s x = .ok s' → kept xs s') (done : xs.foldlM step s = .ok s') :
    kept [] s' := by
  induction xs generalizing s with
  | nil =>
    cases done
    exact initial
  | cons x xs ih =>
    rw [foldlM_cons] at done
    obtain ⟨t, first, rest⟩ := bind_ok done
    exact ih (preserved x xs s t initial first) rest

end Halon.Library
