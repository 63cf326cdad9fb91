/-
Synopsis.Proofs.Line.Flags — which flag of several with one key counts.

A table of flags has its keys in the order in which they were first given
(`keys_ofList`), and under each key what was given last (`get?_ofList`). Flags with
different keys make the table that lists them as they were given (`ofList_of_nodup`),
and in whatever order they are given, the same is found in it (`get?_of_perm`).
-/
import Synopsis.Line.Flags
import Mathlib.Data.List.Induction

namespace Synopsis

/-- The first entry is found under its key and hides no other key. -/
theorem lookup_cons_eq_ite {α β : Type} [BEq α] [LawfulBEq α] [DecidableEq α] (key key' : α)
    (value : β) (entries : List (α × β)) :
    List.lookup key ((key', value) :: entries) =
      if key = key' then some value else entries.lookup key := by
  rw [List.lookup_cons]
  by_cases h : key = key'
  · simp [h]
  · simp [h, beq_false_of_ne h]

namespace FlagTable

theorem get?_cons (key : Text) (value : Option Text) (table : FlagTable) (other : Text) :
    get? ((key, value) :: table) other = if other = key then some value else table.get? other :=
  lookup_cons_eq_ite other key value table

theorem keys_cons (key : Text) (value : Option Text) (table : FlagTable) :
    keys ((key, value) :: table) = key :: table.keys := rfl

/-- A new key goes to the end of the table, and one that is there stays in its place. -/
theorem keys_insert (table : FlagTable) (key : Text) (value : Option Text) :
    (table.insert key value).keys =
      table.keys ++ if key ∈ table.keys then [] else [key] := by
  induction table with
  | nil => rfl
  | cons entry table ih =>
    obtain ⟨key', value'⟩ := entry
    unfold insert
    split
    · rename_i heq
      simp [keys_cons, heq]
    · rename_i hne
      rw [keys_cons, ih, keys_cons, List.cons_append]
      by_cases h : key ∈ keys table
      · rw [if_pos h, if_pos (List.mem_cons_of_mem _ h)]
      · rw [if_neg h, if_neg fun hmem => (List.mem_cons.mp hmem).elim (hne ∘ Eq.symm) h]

/-- What was given for a key now is what the table has for it, and other keys are left alone. -/
theorem get?_insert (table : FlagTable) (key : Text) (value : Option Text) (other : Text) :
    (table.insert key value).get? other = if other = key then some value else table.get? other := by
  induction table with
  | nil => exact get?_cons key value [] other
  | cons entry table ih =>
    obtain ⟨key', value'⟩ := entry
    unfold insert
    split
    · rename_i heq
      rw [get?_cons, get?_cons, heq]
      split <;> rfl
    · rename_i hne
      rw [get?_cons, ih, get?_cons]
      by_cases h : other = key
      · rw [if_pos h, if_pos h, if_neg (h ▸ Ne.symm hne)]
      · rw [if_neg h, if_neg h]

theorem ofList_concat (flags : List (Text × Option Text)) (key : Text) (value : Option Text) :
    ofList (flags ++ [(key, value)]) = (ofList flags).insert key value := by
  simp [ofList]

/-- The keys of a table are those given, each at its first place. -/
theorem keys_ofList (flags : List (Text × Option Text)) :
    (ofList flags).keys = (flags.map Prod.fst).eraseDups := by
  induction flags using List.reverseRecOn with
  | nil => rfl
  | append_singleton flags flag ih =>
    obtain ⟨key, value⟩ := flag
    rw [ofList_concat, keys_insert, ih, List.map_append, List.eraseDups_append]
    by_cases h : key ∈ flags.map Prod.fst
    · simp [List.removeAll, h]
    · simp [List.removeAll, h, List.eraseDups_cons]

/-- A table has under each key what was given for it last. -/
theorem get?_ofList (flags : List (Text × Option Text)) (key : Text) :
    (ofList flags).get? key = flags.reverse.lookup key := by
  induction flags using List.reverseRecOn with
  | nil => rfl
  | append_singleton flags flag ih =>
    obtain ⟨key', value⟩ := flag
    rw [ofList_concat, get?_insert, ih, List.reverse_concat]
    exact (get?_cons key' value flags.reverse key).symm

/-! ## Different keys -/

/-- A key is in a table just if something is given for it. -/
theorem mem_keys_iff {table : FlagTable} {key : Text} :
    key ∈ table.keys ↔ (table.get? key).isSome = true := by
  simp [keys, get?, List.lookup_isSome_iff]

theorem nodup_keys_insert {table : FlagTable} (h : table.keys.Nodup) (key : Text)
    (value : Option Text) : (table.insert key value).keys.Nodup := by
  rw [keys_insert]
  split
  · simpa using h
  · rename_i hnew
    refine List.nodup_append.mpr ⟨h, by simp, fun other hother key' hkey' => ?_⟩
    rw [List.mem_singleton.mp hkey']
    exact fun heq => hnew (heq ▸ hother)

/-- A table has each key once. -/
theorem nodup_keys_ofList (flags : List (Text × Option Text)) : (ofList flags).keys.Nodup := by
  induction flags using List.reverseRecOn with
  | nil => exact List.nodup_nil
  | append_singleton flags flag ih =>
    obtain ⟨key, value⟩ := flag
    rw [ofList_concat]
    exact nodup_keys_insert ih key value

/-- A key that is not in the table goes to its end. -/
theorem insert_of_not_mem {table : FlagTable} {key : Text} (h : key ∉ table.keys)
    (value : Option Text) : table.insert key value = table ++ [(key, value)] := by
  induction table with
  | nil => rfl
  | cons entry table ih =>
    obtain ⟨key', value'⟩ := entry
    rw [keys_cons, List.mem_cons, not_or] at h
    rw [insert, if_neg (Ne.symm h.1), ih h.2, List.cons_append]

/-- Flags with different keys are the entries of their table. -/
theorem ofList_of_nodup {flags : List (Text × Option Text)} (h : (keys flags).Nodup) :
    ofList flags = flags := by
  induction flags using List.reverseRecOn with
  | nil => rfl
  | append_singleton flags flag ih =>
    obtain ⟨key, value⟩ := flag
    rw [keys, List.map_append, List.nodup_append] at h
    have ih := ih h.1
    have hnew : key ∉ keys flags := fun hmem => h.2.2 key hmem key (by simp) rfl
    rw [ofList_concat, ih, insert_of_not_mem hnew]

/-- An entry is found under its key, since no other has that key. -/
theorem get?_eq_some_iff {table : FlagTable} (h : table.keys.Nodup) {key : Text}
    {value : Option Text} : table.get? key = some value ↔ (key, value) ∈ table := by
  induction table with
  | nil => simp [get?]
  | cons entry table ih =>
    obtain ⟨key', value'⟩ := entry
    rw [keys_cons, List.nodup_cons] at h
    rw [get?_cons, List.mem_cons]
    by_cases hkey : key = key'
    · subst hkey
      have hnone : (key, value) ∉ table := fun hmem => h.1 (List.mem_map_of_mem hmem)
      simp [hnone, eq_comm]
    · rw [if_neg hkey, ih h.2]
      simp [hkey]

/-- The order of the entries does not matter for what is found. -/
theorem get?_of_perm {table other : FlagTable} (h : table.keys.Nodup) (hperm : table.Perm other)
    (key : Text) : table.get? key = other.get? key := by
  have hother : other.keys.Nodup := (hperm.map Prod.fst).nodup_iff.mp h
  refine Option.ext fun value => ?_
  rw [get?_eq_some_iff h, get?_eq_some_iff hother]
  exact hperm.mem_iff

end FlagTable

end Synopsis
