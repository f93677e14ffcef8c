/-!
# Maps in order of insertion

The members of a JSON object, the named schemas of a keyword and the methods of a category are
all maps that remember the order in which their keys first came. `OrderedMap` writes such a map
as the list of its entries, so that lists are read, mapped and folded with the operations of
`List`, and this file adds what lists lack: `get?` by key, and `insert`, which writes over the
entry of a key that is present and puts a new key at the end.

The laws kept beside the definitions say what `insert` does to `get?`, to the entries and to
`keys`; nothing else unfolds the two.
-/

namespace SchemaCatalog

/-- The entries of a map, each key with its value, in order of insertion. -/
abbrev OrderedMap (κ : Type u) (α : Type v) := List (κ × α)

namespace OrderedMap

universe u v

variable {κ : Type u} {α : Type v}

/-- The keys of a map in order. -/
def keys (m : OrderedMap κ α) : List κ := m.map Prod.fst

/-- The values of a map in the order of their keys. -/
def values (m : OrderedMap κ α) : List α := m.map Prod.snd

@[simp] theorem keys_nil : keys ([] : OrderedMap κ α) = [] := rfl

@[simp] theorem keys_cons (e : κ × α) (m : OrderedMap κ α) :
    keys (e :: m) = e.1 :: keys m := rfl

variable [DecidableEq κ]

/-- The value under `key`, the first one where a key is repeated. -/
def get? : OrderedMap κ α → κ → Option α
  | [], _ => none
  | (k, a) :: m, key => if k = key then some a else get? m key

/-- The map with `a` under `key`: in the place of the old value, or at the end. -/
def insert : OrderedMap κ α → κ → α → OrderedMap κ α
  | [], key, a => [(key, a)]
  | (k, b) :: m, key, a => if k = key then (k, a) :: m else (k, b) :: insert m key a

/-- Whether some value lies under `key`. -/
def contains (m : OrderedMap κ α) (key : κ) : Bool := (get? m key).isSome

/-- The map that holds the given entries; the last one of a repeated key wins and the first one
decides its place. -/
def ofEntries (entries : List (κ × α)) : OrderedMap κ α :=
  entries.foldl (fun m e => insert m e.1 e.2) []

@[simp] theorem get?_nil (key : κ) : get? ([] : OrderedMap κ α) key = none := rfl

/-- What was just written is read back. -/
@[simp] theorem get?_insert_self (m : OrderedMap κ α) (key : κ) (a : α) :
    get? (insert m key a) key = some a := by
  fun_induction insert m key a <;> simp_all [get?]

/-- Writing under one key leaves every other key alone. -/
theorem get?_insert_of_ne (m : OrderedMap κ α) {key other : κ} (a : α) (h : key ≠ other) :
    get? (insert m key a) other = get? m other := by
  fun_induction insert m key a with
  | case1 => simp [get?, h]
  | case2 b m key a => simp [get?, h]
  | case3 k b m key a hk ih => simp [get?, ih h]

/-- A key that the entries before it lack leads to its value. -/
theorem get?_append_of_notMem {before : OrderedMap κ α} {key : κ} (h : key ∉ keys before) (a : α)
    (after : OrderedMap κ α) : get? (before ++ (key, a) :: after) key = some a := by
  induction before with
  | nil => simp [get?]
  | cons e before ih =>
    simp only [keys_cons, List.mem_cons, not_or] at h
    simp [get?, Ne.symm h.1, ih h.2]

/-- What is found under a key is an entry. -/
theorem mem_of_get?_eq_some {m : OrderedMap κ α} {key : κ} {a : α} (h : get? m key = some a) :
    (key, a) ∈ m := by
  induction m with
  | nil => simp at h
  | cons e m ih =>
    by_cases he : e.1 = key
    · simp only [get?, he, if_true, Option.some.injEq] at h
      exact List.mem_cons.2 (.inl (Prod.ext he.symm h.symm))
    · simp only [get?, he, if_false] at h
      exact List.mem_cons_of_mem _ (ih h)

/-- An entry is what was just written or was there before. -/
theorem eq_or_mem_of_mem_insert {m : OrderedMap κ α} {key : κ} {a : α} {e : κ × α}
    (h : e ∈ insert m key a) : e = (key, a) ∨ e ∈ m := by
  fun_induction insert m key a with
  | case1 => exact .inl (List.mem_singleton.1 h)
  | case2 b m key a =>
    rcases List.mem_cons.1 h with h | h
    · exact .inl h
    · exact .inr (List.mem_cons_of_mem _ h)
  | case3 k b m key a hk ih =>
    rcases List.mem_cons.1 h with h | h
    · exact .inr (List.mem_cons.2 (.inl h))
    · exact (ih h).imp_right (List.mem_cons_of_mem _)

/-- A key has a value exactly when it is one of the keys. -/
theorem contains_iff_mem_keys (m : OrderedMap κ α) (key : κ) :
    contains m key = true ↔ key ∈ keys m := by
  induction m with
  | nil => simp [contains]
  | cons e m ih =>
    by_cases h : e.1 = key
    · simp [contains, get?, h]
    · have h' : ¬ key = e.1 := fun hk => h hk.symm
      simpa [contains, get?, h, h'] using ih

/-- A new key goes to the end. -/
theorem keys_insert (m : OrderedMap κ α) (key : κ) (a : α) :
    keys (insert m key a) = if key ∈ keys m then keys m else keys m ++ [key] := by
  fun_induction insert m key a with
  | case1 => simp
  | case2 b m key a => simp
  | case3 k b m key a hk ih =>
    have hk' : ¬ key = k := fun h => hk h.symm
    by_cases hm : key ∈ keys m <;> simp [ih, hm, hk']

/-- Distinct keys stay distinct. -/
theorem nodup_keys_insert {m : OrderedMap κ α} (h : (keys m).Nodup) (key : κ) (a : α) :
    (keys (insert m key a)).Nodup := by
  rw [keys_insert]
  split
  · exact h
  · rename_i hm
    rw [List.nodup_append]
    refine ⟨h, by simp, ?_⟩
    intro x hx y hy
    simp only [List.mem_singleton] at hy
    subst hy
    exact fun hxy => hm (hxy ▸ hx)

/-- Every map built by insertions has distinct keys. -/
theorem nodup_keys_ofEntries (entries : List (κ × α)) : (keys (ofEntries entries)).Nodup := by
  suffices h : ∀ (m : OrderedMap κ α), (keys m).Nodup →
      (keys (entries.foldl (fun m e => insert m e.1 e.2) m)).Nodup from h [] (by simp)
  induction entries with
  | nil => exact fun m hm => hm
  | cons e entries ih => exact fun m hm => ih _ (nodup_keys_insert hm e.1 e.2)

end OrderedMap

end SchemaCatalog
