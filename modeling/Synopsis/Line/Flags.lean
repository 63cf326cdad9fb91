/-
Synopsis.Line.Flags — the flags given on a command line.

The table has one entry for each key, in the order in which the keys were first
given. A key that is given again keeps its place and takes the later value. A
flag without `=` has no value, which is not the same as an empty one.
-/
import Synopsis.Text.Basic

namespace Synopsis

/-- Keys with their values, each key once. -/
abbrev FlagTable := List (Text × Option Text)

namespace FlagTable

def insert (table : FlagTable) (key : Text) (value : Option Text) : FlagTable :=
  match table with
  | [] => [(key, value)]
  | (key', value') :: table =>
    if key' = key then (key, value) :: table else (key', value') :: insert table key value

def ofList (flags : List (Text × Option Text)) : FlagTable :=
  flags.foldl (fun table (key, value) => table.insert key value) []

def get? (table : FlagTable) (key : Text) : Option (Option Text) := List.lookup key table

def keys (table : FlagTable) : List Text := table.map Prod.fst

end FlagTable

end Synopsis
