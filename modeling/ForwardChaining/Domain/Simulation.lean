import ForwardChaining.Chaining.Run
import ForwardChaining.Domain.Basic

/-!
# Simulations — runs over a domain

A `Simulation` says how a domain is run: under which strategy, for how many steps at most, and
whether in productive mode.
-/

namespace ForwardChaining

/-- A configured run over a domain. -/
structure Simulation (σ : Type) where
  domain : Domain
  strategy : Strategy σ
  state : σ
  maxSteps : Nat := 1000
  productiveOnly : Bool := false

namespace Domain

def engine (d : Domain) (productiveOnly : Bool := false) : Engine where
  rules := d.rules
  forms := d.forms
  productiveOnly := productiveOnly

end Domain

namespace Simulation

variable {σ : Type}

def start (s : Simulation σ) : Run σ where
  engine := s.domain.engine s.productiveOnly
  strategy := s.strategy
  state := s.state
  facts := s.domain.initialFacts

def outcome (s : Simulation σ) : Except InferenceError Outcome :=
  s.start.complete s.maxSteps

def log (s : Simulation σ) : List Event :=
  s.start.log s.maxSteps

end Simulation

namespace Domain

/-- The simulation of a domain under random choices. -/
def simulation (d : Domain) (generator : StdGen) : Simulation Policy where
  domain := d
  strategy := Policy.choose
  state := .random generator

end Domain

end ForwardChaining
