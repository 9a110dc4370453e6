/-
# The allow-list

`load_enrolled_nodes` of `server.py`.  The YAML library is a parameter: what it makes of
the contents of a file, if they are YAML at all.
-/

import Vestrix.Outcome
import Vestrix.Text.CodePoint

namespace Vestrix
namespace Collector

open Text Outcome

/-- What `yaml.safe_load` returns. -/
inductive Yaml where
  | str (s : Str)
  | list (xs : List Yaml)
  | dict (members : List (Yaml × Yaml))
  | other

/-- The reasons of `AllowlistError`, and the text that is not UTF-8. -/
inductive AllowlistError where
  | notLoaded
  | notNodesMapping
  | notNonemptyList
  | notNonemptyString
  | duplicates
deriving DecidableEq

/-- A non-empty string, if it is one. -/
def Yaml.nodeId? : Yaml → Option Str
  | .str s => if s ≠ [] then some s else none
  | _ => none

/-- The value of a dictionary that has the key `nodes` and no other. -/
def Yaml.onlyNodes? : Yaml → Option Yaml
  | .dict [(.str k, v)] => if k = lit "nodes" then some v else none
  | _ => none

/-- A list that is not empty, if it is one. -/
def Yaml.nonemptyList? : Yaml → Option (List Yaml)
  | .list (x :: xs) => some (x :: xs)
  | _ => none

/-- `load_enrolled_nodes` on the contents of a file. -/
def loadEnrolledNodes {F : Type} (safeLoad : F → Option Yaml) (contents : F) :
    Except AllowlistError (List Str) := do
  let raw ← orError .notLoaded (safeLoad contents)
  let nodes ← orError .notNodesMapping raw.onlyNodes?
  let nodes ← orError .notNonemptyList nodes.nonemptyList?
  let ids ← orError .notNonemptyString (nodes.mapM Yaml.nodeId?)
  require ids.Nodup .duplicates
  return ids

end Collector
end Vestrix
