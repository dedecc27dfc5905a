/-!
# Dictionaries

A dictionary is a list of key–value pairs in strictly ascending order of the keys, by
code point. Being plain lists, dictionaries can be nested inside the recursive types of
data values and tree nodes; that the keys ascend is a fact about the lists that the
operations build (`QueryAccess.Dict.alter_sorted`), not part of the type.

Look-up is core's `List.lookup`. Everything that writes goes through
`QueryAccess.Dict.alter`, which looks a key up and puts a new value in its place; what a
later look-up sees is `QueryAccess.Dict.lookup_alter`.
-/

namespace QueryAccess

/-- Key–value pairs, in ascending order of the keys. -/
abbrev Dict (α : Type) : Type := List (String × α)

namespace Dict

variable {α : Type}

/-- Puts under a key the value that `f` makes of what the dictionary holds there. -/
def alter (key : String) (f : Option α → α) : Dict α → Dict α
  | [] => [(key, f none)]
  | (k, a) :: rest =>
    if key < k then (key, f none) :: (k, a) :: rest
    else if key = k then (key, f (some a)) :: rest
    else (k, a) :: alter key f rest

/-- Puts a value under a key, in place of an earlier one. -/
def insert (key : String) (a : α) (d : Dict α) : Dict α := alter key (fun _ => a) d

/-- The dictionary of a list of pairs; of repeated keys the last one counts. -/
def ofList (pairs : List (String × α)) : Dict α :=
  pairs.foldl (fun d pair => insert pair.1 pair.2 d) []

/-- The keys, in ascending order. -/
def keys (d : Dict α) : List String := d.map Prod.fst

/-- The keys ascend strictly. -/
def Sorted (d : Dict α) : Prop := d.keys.Pairwise (· < ·)

/-- Ascending keys come once. -/
theorem Sorted.nodup_keys {d : Dict α} (h : Sorted d) : d.keys.Nodup := by
  refine List.Pairwise.imp (fun {a b} hlt => ?_) h
  rintro rfl
  exact String.lt_irrefl a hlt

/-! ### Writing and looking up -/

theorem mem_keys_alter {key k : String} {f : Option α → α} {d : Dict α}
    (h : k ∈ keys (alter key f d)) : k = key ∨ k ∈ keys d := by
  induction d with
  | nil => simpa [alter, keys] using h
  | cons pair rest ih =>
    obtain ⟨k', a⟩ := pair
    simp only [alter] at h
    split at h
    · simpa [keys] using h
    · split at h
      · next heq => subst heq; simpa [keys] using h
      · simp only [keys, List.map_cons, List.mem_cons] at h ih ⊢
        rcases h with h | h
        · exact Or.inr (Or.inl h)
        · rcases ih h with h | h
          · exact Or.inl h
          · exact Or.inr (Or.inr h)

/-- Writing keeps the keys in order. -/
theorem alter_sorted (key : String) (f : Option α → α) {d : Dict α} (h : Sorted d) :
    Sorted (alter key f d) := by
  induction d with
  | nil => simp [Sorted, alter, keys]
  | cons pair rest ih =>
    obtain ⟨k, a⟩ := pair
    have hrest : Sorted rest := (List.pairwise_cons.1 h).2
    have hk : ∀ k' ∈ keys rest, k < k' := (List.pairwise_cons.1 h).1
    simp only [alter]
    split
    · next hlt =>
      refine List.pairwise_cons.2 ⟨fun k' hk' => ?_, h⟩
      rcases List.mem_cons.1 hk' with rfl | hk'
      · exact hlt
      · exact String.lt_trans hlt (hk k' hk')
    · next hnlt =>
      split
      · next heq => subst heq; exact h
      · next hne =>
        refine List.pairwise_cons.2 ⟨fun k' hk' => ?_, ih hrest⟩
        rcases mem_keys_alter hk' with rfl | hk'
        · rcases String.le_total k k' with hle | hle
          · exact Std.lt_of_le_of_ne hle (Ne.symm hne)
          · exact absurd (Std.lt_of_le_of_ne hle hne) hnlt
        · exact hk k' hk'

/-- A key below all keys of a dictionary is not in it. -/
theorem lookup_eq_none {key : String} {d : Dict α} (h : ∀ k ∈ keys d, key < k) :
    d.lookup key = none := by
  induction d with
  | nil => rfl
  | cons pair rest ih =>
    obtain ⟨k, a⟩ := pair
    have hlt : key < k := h k (by simp [keys])
    have hne : (key == k) = false := by
      simp only [beq_eq_false_iff_ne, ne_eq]
      rintro rfl
      exact String.lt_irrefl key hlt
    rw [List.lookup_cons, hne]
    exact ih fun k' hk' => h k' (List.mem_cons_of_mem _ hk')

/-- After a write the key holds the new value, and every other key what it held. -/
theorem lookup_alter (key k : String) (f : Option α → α) {d : Dict α} (h : Sorted d) :
    (alter key f d).lookup k = if k = key then some (f (d.lookup key)) else d.lookup k := by
  induction d with
  | nil =>
    by_cases hk : k = key
    · simp [alter, hk]
    · have : (k == key) = false := by simpa using hk
      simp [alter, hk, List.lookup_cons, this]
  | cons pair rest ih =>
    obtain ⟨k', a⟩ := pair
    have hrest : Sorted rest := (List.pairwise_cons.1 h).2
    have hk' : ∀ k ∈ keys rest, k' < k := (List.pairwise_cons.1 h).1
    simp only [alter]
    split
    · next hlt =>
      have hnone : ((k', a) :: rest).lookup key = none := by
        refine lookup_eq_none fun k'' hk'' => ?_
        rcases List.mem_cons.1 hk'' with rfl | hk''
        · exact hlt
        · exact String.lt_trans hlt (hk' k'' hk'')
      by_cases hk : k = key
      · subst hk; simp [hnone]
      · have : (k == key) = false := by simpa using hk
        rw [List.lookup_cons, this]; simp [hk]
    · next hnlt =>
      split
      · next heq =>
        subst heq
        by_cases hk : k = key
        · subst hk; simp
        · have : (k == key) = false := by simpa using hk
          simp [List.lookup_cons, hk, this]
      · next hne =>
        have hbeq : (key == k') = false := by simpa using hne
        rw [List.lookup_cons, List.lookup_cons, List.lookup_cons, hbeq]
        by_cases hkk : k = k'
        · subst hkk
          have hk : ¬k = key := fun e => hne e.symm
          simp [hk]
        · have : (k == k') = false := by simpa using hkk
          rw [this]
          exact ih hrest

/-- A dictionary in order holds each of its pairs under the pair's own key. -/
theorem lookup_eq_some_iff {d : Dict α} (h : Sorted d) {key : String} {a : α} :
    d.lookup key = some a ↔ (key, a) ∈ d := by
  induction d with
  | nil => simp
  | cons pair rest ih =>
    obtain ⟨k, b⟩ := pair
    have hrest : Sorted rest := (List.pairwise_cons.1 h).2
    have hk : ∀ k' ∈ keys rest, k < k' := (List.pairwise_cons.1 h).1
    rw [List.lookup_cons]
    by_cases hkey : key = k
    · subst hkey
      have hnot : (key, a) ∉ rest := fun hmem =>
        String.lt_irrefl key (hk key (List.mem_map_of_mem hmem))
      simp [hnot, eq_comm]
    · have hbeq : (key == k) = false := by simpa using hkey
      rw [hbeq]
      simpa [hkey] using ih hrest

/-- What is found in a dictionary is in it, whether or not it is in order. -/
theorem mem_of_lookup {d : Dict α} {key : String} {a : α} (h : d.lookup key = some a) :
    (key, a) ∈ d := by
  obtain ⟨before, after, rfl, -⟩ := List.lookup_eq_some_iff.1 h
  exact List.mem_append_right before (.head after)

theorem lookup_singleton (key k : String) (a : α) :
    List.lookup key [(k, a)] = if key = k then some a else none := by
  by_cases h : key = k
  · simp [h]
  · have hbeq : (key == k) = false := by simpa using h
    simp [List.lookup_cons, h, hbeq]

/-- A dictionary built from pairs is sorted. -/
theorem ofList_sorted (pairs : List (String × α)) : Sorted (ofList pairs) := by
  suffices ∀ d : Dict α, Sorted d →
      Sorted (pairs.foldl (fun d pair => insert pair.1 pair.2 d) d) from
    this [] List.Pairwise.nil
  induction pairs with
  | nil => exact fun d h => h
  | cons pair rest ih => exact fun d h => ih _ (alter_sorted _ _ h)

end Dict

end QueryAccess
