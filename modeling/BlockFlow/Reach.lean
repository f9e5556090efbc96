/-!
Searching for everything that can be reached from given names in steps.
-/

namespace BlockFlow.Reach

/-- The names that one step leads to from `frontier` and that are new. -/
def fresh (next : String → List String) (seen frontier : List String) : List String :=
  ((frontier.flatMap next).filter fun x => !seen.contains x).eraseDups

/-- Searches in rounds; each takes one step from the names found in the round before. -/
def rounds (next : String → List String) : (fuel : Nat) → (seen frontier : List String) →
    List String
  | 0, seen, _ => seen
  | fuel + 1, seen, frontier =>
    let new := fresh next seen frontier
    if new.isEmpty then seen else rounds next fuel (seen ++ new) new

/-- Everything that steps lead to from `start`, `start` included. `size` is at least the number of
names that steps lead to. -/
def closure (next : String → List String) (size : Nat) (start : List String) : List String :=
  rounds next (size + 1) start.eraseDups start.eraseDups

end BlockFlow.Reach
