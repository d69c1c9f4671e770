import Mathlib.Init

/-! Computations over a state and an outside world that may fail. A failure gives
up the state and keeps what was done to the world. Proofs take computations that
returned or failed apart into the steps they are made of. -/

namespace Halon.Library
open List

variable {σ τ ω ε α β : Type}

abbrev Process (ω ε : Type) := ExceptT ε (StateM ω)

abbrev Stateful (σ ω ε : Type) := StateT σ (Process ω ε)

def Process.outcome (m : Process ω ε α) (w : ω) : Except ε α × ω := m.run.run w

variable {f : α → Process ω ε β}

theorem Process.outcome_bind :
    (m >>= f).outcome w = match m.outcome w with
      | (.ok value, v) => (f value).outcome v
      | (.error error, v) => (.error error, v) := by
  simp only [outcome, bind, StateT.bind, ExceptT.bind, ExceptT.bindCont, StateT.run, ExceptT.run, ExceptT.mk]
  cases m w with
  | mk result => cases result <;> rfl

theorem Process.bind_ok (ok : (m >>= f).outcome w = (.ok result, w')) :
    ∃ value v, m.outcome w = (.ok value, v) ∧ (f value).outcome v = (.ok result, w') := by
  rw [outcome_bind] at ok
  rcases found : m.outcome w with ⟨_ | value, v⟩
  · simp [found] at ok
  · rw [found] at ok
    exact ⟨value, v, rfl, ok⟩

theorem Process.pure_ok (ok : (pure value : Process ω ε α).outcome w = (.ok result, w')) :
    result = value := by
  cases ok
  rfl

namespace Stateful

def outcome (x : Stateful σ ω ε α) (s : σ) (w : ω) : Except ε (α × σ) × ω := (x.run s).run.run w

def Returns (x : Stateful σ ω ε α) (s : σ) (w : ω) (value : α) (s' : σ) (w' : ω) : Prop :=
  outcome x s w = (.ok (value, s'), w')

def Fails (x : Stateful σ ω ε α) (s : σ) (w : ω) (error : ε) (w' : ω) : Prop := outcome x s w = (.error error, w')

/-- Run a computation and return its error, if it fails, in the state before it. -/
def attempt (x : Stateful σ ω ε α) : Stateful σ ω ε (Except ε α) := fun s w =>
  match outcome x s w with
  | (.ok pair, w') => (.ok (.ok pair.1, pair.2), w')
  | (.error error, w') => (.ok (.error error, s), w')

def zoom (view : τ → σ) (update : σ → τ → τ) (x : Stateful σ ω ε α) : Stateful τ ω ε α := fun whole => do
  let (value, part) ← x.run (view whole)
  pure (value, update part whole)

variable {x : Stateful σ ω ε α} {f : α → Stateful σ ω ε β} {s s' : σ} {w w' : ω}

theorem outcome_bind : outcome (x >>= f) s w = match outcome x s w with
    | (.ok pair, v) => outcome (f pair.1) pair.2 v
    | (.error error, v) => (.error error, v) := by
  simp only [outcome, bind, StateT.bind, ExceptT.bind, ExceptT.bindCont, StateT.run, ExceptT.run, ExceptT.mk]
  cases x s w with
  | mk result => cases result <;> rfl

variable {value : α} {error : ε} {m : Process ω ε α} {results : List β}

@[simp] theorem returns_pure :
    Returns (pure value : Stateful σ ω ε α) s w result s' w' ↔ result = value ∧ s' = s ∧ w' = w := by
  have pure_outcome : outcome (pure value : Stateful σ ω ε α) s w = (.ok (value, s), w) := rfl
  simp [Returns, pure_outcome, eq_comm, and_assoc]

@[simp] theorem not_fails_pure : ¬ Fails (pure value : Stateful σ ω ε α) s w error w' := by
  intro fails
  cases fails

theorem returns_bind : Returns (x >>= f) s w result s' w' ↔
    ∃ value between v, Returns x s w value between v ∧ Returns (f value) between v result s' w' := by
  simp only [Returns, outcome_bind]
  rcases outcome x s w with ⟨_ | ⟨value, between⟩, v⟩ <;> simp [and_assoc]

theorem returns_bind_pure {g : α → β} : Returns (x >>= fun value => pure (g value)) s w result s' w' ↔
    ∃ value, Returns x s w value s' w' ∧ result = g value := by
  simp only [returns_bind, returns_pure]
  grind

theorem fails_bind : Fails (x >>= f) s w error w' ↔
    Fails x s w error w' ∨ ∃ value between v, Returns x s w value between v ∧ Fails (f value) between v error w' := by
  simp only [Fails, Returns, outcome_bind]
  rcases outcome x s w with ⟨_ | ⟨value, between⟩, v⟩ <;> simp [and_assoc]

@[simp] theorem returns_get {value} : Returns (get : Stateful σ ω ε σ) s w value s' w' ↔ value = s ∧ s' = s ∧ w' = w := by
  have get_outcome : outcome (get : Stateful σ ω ε σ) s w = (.ok (s, s), w) := rfl
  simp [Returns, get_outcome, eq_comm, and_assoc]

@[simp] theorem returns_modify {value} : Returns (modify g : Stateful σ ω ε PUnit) s w value s' w' ↔ s' = g s ∧ w' = w := by
  have modify_outcome : outcome (modify g : Stateful σ ω ε PUnit) s w = (.ok (.unit, g s), w) := rfl
  simp [Returns, modify_outcome, eq_comm]

theorem returns_get_bind {g : σ → Stateful σ ω ε β} :
    Returns (get >>= g) s w result s' w' ↔ Returns (g s) s w result s' w' := by
  rw [returns_bind]
  simp [and_assoc]

theorem returns_modify_bind {h : PUnit → Stateful σ ω ε β} :
    Returns (modify g >>= h) s w result s' w' ↔ Returns (h .unit) (g s) w result s' w' := by
  rw [returns_bind]
  constructor
  · intro returned
    obtain ⟨_, _, _, modified, returned⟩ := returned
    obtain ⟨rfl, rfl⟩ := returns_modify.mp modified
    exact returned
  · exact fun returned => ⟨_, _, _, returns_modify.mpr ⟨rfl, rfl⟩, returned⟩

@[simp] theorem not_fails_get : ¬ Fails (get : Stateful σ ω ε σ) s w error w' := by
  intro fails
  cases fails

@[simp] theorem not_fails_modify : ¬ Fails (modify g : Stateful σ ω ε PUnit) s w error w' := by
  intro fails
  cases fails

@[simp] theorem not_returns_throw : ¬ Returns (throw error : Stateful σ ω ε α) s w value s' w' := by
  intro returns
  cases returns

@[simp] theorem fails_throw : Fails (throw error : Stateful σ ω ε α) s w other w' ↔ other = error ∧ w' = w := by
  have throw_outcome : outcome (throw error : Stateful σ ω ε α) s w = (.error error, w) := rfl
  simp [Fails, throw_outcome, eq_comm]

private theorem outcome_lift : outcome (liftM m : Stateful σ ω ε α) s w =
    ((m.outcome w).1.map fun value => (value, s), (m.outcome w).2) := by
  change ((do let value ← m; pure (value, s)) : Process ω ε (α × σ)).run.run w = _
  simp only [Process.outcome, bind, ExceptT.bind, ExceptT.bindCont, ExceptT.run, ExceptT.mk, StateT.bind, StateT.run]
  cases m w with
  | mk result => cases result <;> rfl

theorem returns_lift : Returns (liftM m : Stateful σ ω ε α) s w value s' w' ↔
    m.outcome w = (.ok value, w') ∧ s' = s := by
  rw [Returns, outcome_lift]
  rcases m.outcome w with ⟨_ | _, v⟩
  · simp [Except.map]
  · simp only [Except.map, Prod.mk.injEq, Except.ok.injEq]
    grind

theorem fails_lift : Fails (liftM m : Stateful σ ω ε α) s w error w' ↔
    m.outcome w = (.error error, w') := by
  rw [Fails, outcome_lift]
  rcases m.outcome w with ⟨_ | _, v⟩ <;> simp [Except.map]

theorem outcome_attempt : outcome (attempt x) s w = match outcome x s w with
    | (.ok pair, v) => (.ok (.ok pair.1, pair.2), v)
    | (.error error, v) => (.ok (.error error, s), v) := rfl

theorem returns_attempt : Returns (attempt x) s w result s' w' ↔
    (∃ value, result = .ok value ∧ Returns x s w value s' w') ∨ ∃ error, result = .error error ∧ s' = s ∧
    Fails x s w error w' := by
  simp only [Returns, Fails, outcome_attempt]
  rcases outcome x s w with ⟨_ | ⟨_, _⟩, v⟩
  · simp only [Prod.mk.injEq, Except.ok.injEq, Except.error.injEq, reduceCtorEq, false_and, and_false, exists_false, false_or]
    grind
  · simp only [Prod.mk.injEq, Except.ok.injEq, reduceCtorEq, false_and, and_false, exists_false, or_false]
    grind

theorem not_fails_attempt : ¬ Fails (attempt x) s w error w' := by
  simp only [Fails, outcome_attempt]
  rcases outcome x s w with ⟨_ | ⟨value, between⟩, v⟩ <;> simp

variable {view : τ → σ}

private theorem outcome_zoom :
    outcome (zoom view update x) t w =
      ((outcome x (view t) w).1.map fun pair => (pair.1, update pair.2 t), (outcome x (view t) w).2) := by
  change ((do let pair ← x.run (view t); pure (pair.1, update pair.2 t)) : Process ω ε (α × τ)).run.run w = _
  simp only [outcome, bind, ExceptT.bind, ExceptT.bindCont, ExceptT.run, ExceptT.mk, StateT.bind, StateT.run]
  cases x (view t) w with
  | mk result => cases result <;> rfl

theorem returns_zoom : Returns (zoom view update x) t w value t' w' ↔ ∃ part, Returns x (view t) w value part w' ∧
    t' = update part t := by
  simp only [Returns, outcome_zoom]
  rcases outcome x (view t) w with ⟨_ | ⟨_, _⟩, v⟩
  · simp [Except.map]
  · simp only [Except.map, Prod.mk.injEq, Except.ok.injEq]
    grind

theorem returns_mapM_nil : Returns (([] : List α).mapM f) s w results s' w' ↔ results = [] ∧ s' = s ∧ w' = w := by
  rw [mapM_nil, returns_pure]

theorem returns_mapM_cons : Returns ((item :: items).mapM f) s w results s' w' ↔
    ∃ first between v rest, Returns (f item) s w first between v ∧ Returns (items.mapM f) between v rest s' w' ∧
      results = first :: rest := by
  simp only [mapM_cons, returns_bind, returns_pure]
  grind

/-- Each result of a loop is good at its end if each step makes its result good, and the steps after it keep it so. -/
theorem forall_of_mapM {items : List α} {R : σ → σ → Prop} {P : β → σ → Prop} (refl : ∀ s, R s s)
    (trans : ∀ {a b c}, R a b → R b c → R a c)
    (kept : ∀ {result a b}, P result a → R a b → P result b)
    (each : ∀ item ∈ items, ∀ {before v result after v'}, R s before → Returns (f item) before v result after v' →
      R before after ∧ P result after) (returned : Returns (items.mapM f) s w results s' w') :
    R s s' ∧ ∀ result ∈ results, P result s' := by
  induction items generalizing s w results with
  | nil =>
    obtain ⟨rfl, rfl, _⟩ := returns_mapM_nil.mp returned
    exact ⟨refl _, nofun⟩
  | cons item _ ih =>
    obtain ⟨_, _, _, _, ran, later, rfl⟩ := returns_mapM_cons.mp returned
    obtain ⟨moves, holds⟩ := each item mem_cons_self (refl _) ran
    have others := ih (fun other member _ _ _ _ _ since => each other (mem_cons_of_mem item member) (trans moves since)) later
    refine ⟨trans moves others.1, ?_⟩
    intro result member
    rcases mem_cons.mp member with rfl | member
    · exact kept holds others.1
    · exact others.2 result member

variable {exhausted : ε} {x : Nat → Stateful σ ω ε α} {f : Nat → α → Stateful σ ω ε β}

/-- With enough fuel the outcome does not depend on it, and is not that the fuel ran out. -/
def Converges (exhausted : ε) (x : Nat → Stateful σ ω ε α) (s : σ) (w : ω) : Prop :=
  ∃ enough result, (∀ fuel, enough ≤ fuel → outcome (x fuel) s w = result) ∧ ∀ w', result ≠ (.error exhausted, w')

namespace Converges

theorem const {x : Stateful σ ω ε α} (answers : ∀ w', ¬ Fails x s w exhausted w') : Converges exhausted (fun _ => x) s w :=
  ⟨0, outcome x s w, fun _ _ => rfl, answers⟩

theorem succ (steps : ∀ fuel, x (fuel + 1) = y fuel) (converges : Converges exhausted y s w) :
    Converges exhausted x s w := by
  obtain ⟨enough, result, settled, answers⟩ := converges
  refine ⟨enough + 1, result, ?_, answers⟩
  intro fuel sufficient
  obtain ⟨fuel, rfl⟩ : ∃ less, fuel = less + 1 := ⟨fuel - 1, by omega⟩
  rw [steps]
  exact settled fuel (by omega)

theorem bind (first : Converges exhausted x s w) (rest : ∀ {fuel value between v}, Returns (x fuel) s w value between v →
    Converges exhausted (fun fuel => f fuel value) between v) : Converges exhausted (fun fuel => x fuel >>= f fuel) s w := by
  obtain ⟨enough, ⟨error | ⟨_, _⟩, v⟩, settled, answers⟩ := first
  · refine ⟨enough, (.error error, v), ?_, ?_⟩
    · intro fuel sufficient
      rw [outcome_bind, settled fuel sufficient]
    · intro w' same
      cases same
      exact answers _ rfl
  · obtain ⟨more, result, later, finished⟩ := rest (settled enough (Nat.le_refl enough))
    refine ⟨max enough more, result, ?_, finished⟩
    intro fuel sufficient
    rw [outcome_bind, settled fuel (by omega)]
    exact later fuel (by omega)

theorem mapM {f : Nat → α → Stateful σ ω ε β} (each : ∀ item s w, Converges exhausted (fun fuel => f fuel item) s w)
    (items : List α) (s : σ) (w : ω) : Converges exhausted (fun fuel => items.mapM (f fuel)) s w := by
  induction items generalizing s w with
  | nil => exact const fun _ => not_fails_pure
  | cons item _ ih =>
    simp only [mapM_cons]
    exact (each item s w).bind fun _ => (ih _ _).bind fun _ => const fun _ => not_fails_pure

end Converges

end Stateful
end Halon.Library
