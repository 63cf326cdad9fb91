/-
Synopsis.Usage.Cache — trees of usages compiled before.

The cache keeps the trees of the usages asked for last, up to its capacity. Its
keys are requests as they were put: one that does not say whether to commit is
answered like one that says no, but kept apart from it. Usages that are refused
are not kept.
-/
import Synopsis.Usage.Tree

namespace Synopsis

namespace Usage

/-- A request for the tree of a usage. -/
structure Request where
  usage : Text
  committing : Option Bool
deriving DecidableEq

namespace Request

def compile (request : Request) : Except UsageError Node :=
  Usage.compile request.usage (request.committing.getD false)

end Request

/-- Requests with their trees, the one asked for last in front. -/
structure Cache where
  entries : List (Request × Node) := []

namespace Cache

def capacity : Nat := 128

def size (cache : Cache) : Nat := cache.entries.length

def get? (cache : Cache) (request : Request) : Option Node := cache.entries.lookup request

def put (cache : Cache) (request : Request) (tree : Node) : Cache :=
  let others := cache.entries.filter fun (other, _) => other ≠ request
  ⟨((request, tree) :: others).take capacity⟩

/-- The answer to a request, whether it had to be worked out, and the cache afterwards. -/
def compile (cache : Cache) (request : Request) : Except UsageError Node × Bool × Cache :=
  match cache.get? request with
  | some tree => (.ok tree, false, cache.put request tree)
  | none =>
    match request.compile with
    | .error error => (.error error, true, cache)
    | .ok tree => (.ok tree, true, cache.put request tree)

end Cache

end Usage

end Synopsis
