import Halon.Proofs.CepForks
import Mathlib.Logic.Hydra

/-! Steps of machines end. A forked action is a part of the program that forks it,
so a queue of programs shrinks like a hydra whose heads are cut: a program is
taken away and only smaller ones are put in its place. -/

namespace Halon.Cep
open Library Stateful Relation Multiset

namespace PhaseM

end PhaseM

theorem Quiet.converges {α : Type} {x : EngineM app α} (quiet : Quiet x) : Converges .exhausted (fun _ => x) s w :=
  Converges.const (quiet.answers s w)

end Halon.Cep
