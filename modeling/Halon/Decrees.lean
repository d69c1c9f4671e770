import Mathlib.Data.Prod.Lex
import Mathlib.Order.WithBot

/-! Decree identifiers and the lifted orders shared by the consensus protocol
and the replicated log. Legislatures come first in the order. -/

namespace Halon

structure DecreeId where
  decreeLegislatureId : Int
  decreeNumber : Int
deriving Repr

namespace DecreeId

instance : LinearOrder DecreeId :=
  LinearOrder.lift' (fun d => toLex (d.decreeLegislatureId, d.decreeNumber)) (by
    rintro ⟨_, _⟩ ⟨_, _⟩ same
    simpa using toLex.injective same)

theorem lt_def {d e : DecreeId} : d < e ↔ d.decreeLegislatureId < e.decreeLegislatureId ∨
    d.decreeLegislatureId = e.decreeLegislatureId ∧ d.decreeNumber < e.decreeNumber :=
  Prod.Lex.toLex_lt_toLex

theorem le_def {d e : DecreeId} : d ≤ e ↔ d.decreeLegislatureId < e.decreeLegislatureId ∨
    d.decreeLegislatureId = e.decreeLegislatureId ∧ d.decreeNumber ≤ e.decreeNumber :=
  Prod.Lex.toLex_le_toLex

def succ (d : DecreeId) : DecreeId := { d with decreeNumber := d.decreeNumber + 1 }

end DecreeId

def initialDecreeId : DecreeId := ⟨0, 0⟩

/-- An order with a least element added: `Bottom` is `⊥`, `Value x` the coercion of `x`. -/
abbrev Lifted (α : Type) := WithBot α

/-- `fromValue` fails on `Bottom`, so it asks for a proof that it is not applied there. -/
def fromValue {α : Type} (lifted : Lifted α) (notBottom : lifted ≠ ⊥) : α := lifted.unbot notBottom

@[simp] theorem coe_fromValue {α : Type} (lifted : Lifted α) (notBottom : lifted ≠ ⊥) :
    ((fromValue lifted notBottom : α) : Lifted α) = lifted := WithBot.coe_unbot lifted notBottom

end Halon
