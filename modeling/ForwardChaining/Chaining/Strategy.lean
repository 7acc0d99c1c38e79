import ForwardChaining.Chaining.Candidate

/-!
# Strategies — which candidate fires

A `Strategy σ` answers a list of candidates with an index into it and may carry a state of type `σ`
from one answer to the next. A `Policy` is a strategy that is its own state.
-/

namespace ForwardChaining

/-- Chooses among candidates, of which there is at least one. An index beyond the list makes the
step fail. -/
abbrev Strategy (σ : Type) := List Candidate → σ → Nat × σ

/-- The position of the first candidate that is greatest by a measure. -/
def firstGreatest (measure : Candidate → Nat) (cs : List Candidate) : Nat :=
  let ms := cs.map measure
  ms.idxOf (ms.foldl max 0)

/-- Ways to choose that can be written down. -/
inductive Policy where
  | first
  | last
  | constant (index : Nat)
  /-- The given indices in turn, and the first candidate when they are used up. -/
  | script (indices : List Nat)
  /-- The given numbers over and over, reduced modulo the number of candidates. -/
  | cycle (numbers : List Nat)
  /-- The high bits of a linear congruential sequence modulo 2^31. -/
  | congruential (state : Nat)
  | random (generator : StdGen)
  /-- The first candidate of the last rule that has one. -/
  | latestRule
  /-- The first candidate that binds most variables. -/
  | mostBound

namespace Policy

def choose : Strategy Policy := fun cs policy =>
  match policy with
  | first => (0, first)
  | last => (cs.length - 1, last)
  | constant index => (index, constant index)
  | script [] => (0, script [])
  | script (index :: rest) => (index, script rest)
  | cycle [] => (0, cycle [])
  | cycle (n :: rest) => (n % cs.length, cycle (rest ++ [n]))
  | congruential state =>
    let next := (state * 1103515245 + 12345) % 2147483648
    (next / 65536 % cs.length, congruential next)
  | random generator =>
    let (index, next) := randNat generator 0 (cs.length - 1)
    (index, random next)
  | latestRule => (firstGreatest Candidate.ruleIndex cs, latestRule)
  | mostBound => (firstGreatest (·.binding.size) cs, mostBound)

end Policy

end ForwardChaining
