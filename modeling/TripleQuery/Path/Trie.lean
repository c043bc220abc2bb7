import TripleQuery.Path.Hop

/-!
Paths folded on what they share at the start. Branches keep the order in which they were first
seen.
-/

namespace TripleQuery

/-- A branch with what lies below it, and the branches beside it. -/
inductive Trie where
  | leaf
  | branch (hop : Hop) (below beside : Trie)
  deriving DecidableEq

namespace Trie

/-- Changes what lies below the branch of a hop, which is made at the end if it is missing. -/
def graft (hop : Hop) (change : Trie → Trie) : Trie → Trie
  | leaf => branch hop (change leaf) leaf
  | branch first below beside =>
    if first = hop then branch first (change below) beside
    else branch first below (graft hop change beside)

def insert : Path → Trie → Trie
  | [] => id
  | hop :: rest => graft hop (insert rest)

def ofPaths (paths : List Path) : Trie := paths.foldl (fun trie path => trie.insert path) leaf

def isLeaf : Trie → Bool
  | leaf => true
  | branch _ _ _ => false

def branches : Trie → List (Hop × Trie)
  | leaf => []
  | branch hop below beside => (hop, below) :: branches beside

def leafCount : Trie → Nat
  | leaf => 0
  | branch _ below beside => max 1 (leafCount below) + leafCount beside

def paths : Trie → List Path
  | leaf => []
  | branch hop below beside =>
    (if below.isLeaf then [[hop]] else (paths below).map (hop :: ·)) ++ paths beside

/-- One hop a line, indented by four for each level. -/
def renderAt (depth : Nat) : Trie → String
  | leaf => ""
  | branch hop below beside =>
    String.ofList (List.replicate (4 * depth) ' ') ++ hop.render ++ "\n" ++
      renderAt (depth + 1) below ++ renderAt depth beside

def render (t : Trie) : String := t.renderAt 0

end Trie

end TripleQuery
