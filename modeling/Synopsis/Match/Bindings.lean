/-
Synopsis.Match.Bindings — what a match binds.

A match binds keys to texts, the same key possibly several times. As a table the
bindings have each key once, with the text first bound to it and in the order in
which the keys were first bound.
-/
import Synopsis.Match.Trail
import Synopsis.Text.Quoted

namespace Synopsis

namespace Match

/-- The captures of a match in the order in which they were made. -/
structure Bindings where
  captures : List Capture
deriving DecidableEq

namespace Bindings

/-- The captures whose key none of the earlier ones has. `seen` are the keys of those before. -/
def firsts (seen : List Text) : List Capture → List Capture
  | [] => []
  | (key, value) :: captures =>
    if key ∈ seen then firsts seen captures
    else (key, value) :: firsts (key :: seen) captures

/-- The bindings as a table: each key with the first text bound to it. -/
def table (bindings : Bindings) : List Capture := firsts [] bindings.captures

def keys (bindings : Bindings) : List Text := bindings.table.map Prod.fst

def values (bindings : Bindings) : List (Option Text) := bindings.table.map Prod.snd

def size (bindings : Bindings) : Nat := bindings.table.length

def get? (bindings : Bindings) (key : Text) : Option (Option Text) :=
  bindings.captures.lookup key

def contains (bindings : Bindings) (key : Text) : Bool := (bindings.get? key).isSome

def getAll (bindings : Bindings) (key : Text) : List (Option Text) :=
  (bindings.captures.filter fun (other, _) => other == key).map Prod.snd

def shown (bindings : Bindings) : Text :=
  "Bindings(".toList ++ Quoted.table bindings.table ++ [')']

end Bindings

end Match

end Synopsis
