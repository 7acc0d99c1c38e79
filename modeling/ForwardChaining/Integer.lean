import Std.Data.String.ToInt

/-!
# Integer — 64-bit integers and their decimal spelling

The numbers of the language are signed 64-bit integers. An exact result that does not fit is no
integer (`Integer.ofInt?`), so nothing wraps. A number has exactly one spelling, the one that
`Integer.text` prints; `Integer.ofText?` reads that spelling and no other, so `+3`, `007` and `-0`
are not numbers.
-/

namespace ForwardChaining

abbrev Integer := Int64

namespace Integer

def Fits (z : Int) : Prop :=
  -9223372036854775808 ≤ z ∧ z ≤ 9223372036854775807

instance (z : Int) : Decidable (Fits z) :=
  inferInstanceAs (Decidable (_ ∧ _))

/-- The integer with the value `z`, if `z` is in range. -/
def ofInt? (z : Int) : Option Integer :=
  if Fits z then some (Int64.ofInt z) else none

/-- The decimal digits of an integer, after a minus sign if it is negative. -/
def text (i : Integer) : String :=
  i.toInt.repr

/-- The integer whose decimal spelling is `name`, if there is one. -/
def ofText? (name : String) : Option Integer := do
  let z ← name.toInt?
  if z.repr = name then ofInt? z else none

theorem fits_toInt (i : Integer) : Fits i.toInt :=
  ⟨Int64.le_toInt i, Int.lt_add_one_iff.1 (Int64.toInt_lt i)⟩

theorem ofInt?_eq_some_iff (z : Int) (i : Integer) : ofInt? z = some i ↔ i.toInt = z := by
  constructor
  · intro h
    simp only [ofInt?] at h
    split at h
    · next hz =>
      cases h
      exact Int64.toInt_ofInt_of_le hz.1 (Int.lt_add_one_iff.2 hz.2)
    · cases h
  · rintro rfl
    simp [ofInt?, fits_toInt]

@[simp] theorem ofInt?_toInt (i : Integer) : ofInt? i.toInt = some i :=
  (ofInt?_eq_some_iff _ _).2 rfl

/-- Reading accepts exactly what printing produces. -/
theorem ofText?_eq_some_iff (name : String) (i : Integer) :
    ofText? name = some i ↔ name = i.text := by
  constructor
  · intro h
    obtain ⟨z, -, hz⟩ := Option.bind_eq_some_iff.1 h
    split at hz
    · next hname => rw [text, (ofInt?_eq_some_iff _ _).1 hz, hname]
    · cases hz
  · rintro rfl
    simp [ofText?, text, Int.toInt?_repr]

theorem ofText?_eq_none_iff (name : String) :
    ofText? name = none ↔ ∀ i : Integer, name ≠ i.text := by
  rw [Option.eq_none_iff_forall_ne_some]
  exact forall_congr' fun i => not_congr (ofText?_eq_some_iff name i)

end Integer

end ForwardChaining
