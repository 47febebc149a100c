/-!
# Machine words

Words are `Int32`: arithmetic on them wraps around.
-/

namespace ChocoRV

/-- The word that stands for a boolean. -/
def boolWord (b : Bool) : Int32 := if b then 1 else 0

@[simp] theorem boolWord_true : boolWord true = 1 := rfl

@[simp] theorem boolWord_false : boolWord false = 0 := rfl

end ChocoRV
