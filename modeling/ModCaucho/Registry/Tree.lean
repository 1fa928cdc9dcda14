import ModCaucho.Cse
import ModCaucho.Lib.Forest

/-!
# The registry

The parsed configuration as the code reads it, from `registry.c`. A
`registry_t *` that is read through `first` and `next` only is a forest: NULL, or
a node with the list of its children behind `first` and its later siblings
behind `next`.
-/

namespace ModCaucho

open LinkedForest

/-- The data of a `registry_t` -/
structure Entry where
  key : Text
  value : Option Text
deriving DecidableEq, Repr, Inhabited

/-- `registry_t *` as it is read through `first` and `next` -/
abbrev Registry := Forest Entry

namespace Registry

/-- `node->value` -/
def value : Registry → Option Text
  | .nil => none
  | .node entry _ _ => entry.value

/-- Whether `node->key` is this key. -/
def hasKey : Registry → Text → Bool
  | .nil, _ => false
  | .node entry _ _, key => entry.key == key

end Registry

/-- `cse_next_link` -/
def cseNextLink : Registry → Text → Registry
  | .nil, _ => .nil
  | .node entry first next, key =>
      if entry.key = key then .node entry first next else cseNextLink next key

/-- `cse_find_value` -/
def cseFindValue : Registry → Text → Option Text
  | .nil, _ => none
  | .node entry _ next, key => if entry.key = key then entry.value else cseFindValue next key

/-- The test of `cse_app_dir` and `parse_include` for a path that stands on its own. -/
def isAbsolute : Text → Bool
  | [] => false
  | ch :: rest =>
      ch == '/' || ch == '\\' ||
        (rest.head? == some ':' && (('a' ≤ ch && ch ≤ 'z') || ('A' ≤ ch && ch ≤ 'Z')))

end ModCaucho
