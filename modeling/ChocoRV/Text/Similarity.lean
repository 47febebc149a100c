/-!
# Similar texts

The Jaro similarity of two texts: how many of their characters stand at about the same place in
both, and how many of those are out of order. It is kept as a fraction, so that it is exact.
-/

namespace ChocoRV

/-- A fraction between 0 and 1. -/
structure Similarity where
  num : Nat
  den : Nat
deriving DecidableEq, Repr, Inhabited

namespace Similarity

/-- The first fraction is at most the second. -/
def le (s t : Similarity) : Bool := s.num * t.den ≤ t.num * s.den

/-- Claim the first free place that holds `c`, from place `low` on and before `high`. The places
that are left start with number `j`. -/
def claim (c : Char) (low high : Nat) : Nat → List (Char × Bool) → Option (List (Char × Bool))
  | _, [] => none
  | j, (d, taken) :: rest =>
    if low ≤ j && j < high && c == d && !taken then some ((d, true) :: rest)
    else (claim c low high (j + 1) rest).map ((d, taken) :: ·)

/-- Claim a place at most `range` away for every character, the first of which is at place `i`:
the characters that found one, and the places. -/
def claimAll (range : Nat) : Nat → List Char → List (Char × Bool) → List Char × List (Char × Bool)
  | _, [], places => ([], places)
  | i, c :: cs, places =>
    match claim c (i - range) (i + range + 1) 0 places with
    | some places =>
      let (found, places) := claimAll range (i + 1) cs places
      (c :: found, places)
    | none => claimAll range (i + 1) cs places

/-- The similarity of two texts. -/
def ofTexts (a b : String) : Similarity :=
  let n := a.toList.length
  let k := b.toList.length
  let (found, places) := claimAll (max n k / 2 - 1) 0 a.toList (b.toList.map (·, false))
  let partners := (places.filter (·.2)).map (·.1)
  let m := found.length
  let swapped := ((found.zip partners).filter fun (c, d) => c != d).length / 2
  if n = 0 && k = 0 then ⟨1, 1⟩
  else if m = 0 then ⟨0, 1⟩
  else ⟨m * m * k + m * m * n + (m - swapped) * n * k, 3 * n * k * m⟩

/-- From here on texts count as similar. -/
def threshold : Similarity := ⟨7, 10⟩

/-- Insert before the first element that is more similar. -/
def insert (s : Similarity) (text : String) :
    List (Similarity × String) → List (Similarity × String)
  | [] => [(s, text)]
  | (t, other) :: rest =>
    if t.le s then (t, other) :: insert s text rest else (s, text) :: (t, other) :: rest

/-- The texts that are similar to `text`, the most similar one last. -/
def similar (text : String) (texts : List String) : List String :=
  let ranked := texts.foldl (fun ranked t =>
    let s := ofTexts text t
    if threshold.le s then insert s t ranked else ranked) []
  ranked.map (·.2)

end Similarity

end ChocoRV
