import Mathlib
import QuantumSim.Dict

/-!
Look-ups in finite maps. A key has at most one value, and what an operation does to a map is what it
does to the look-up of every key.
-/
namespace QuantumSim.Dict

variable {α : Type}

theorem nodup_keys (d : Dict α) : d.keys.Nodup :=
  List.pairwise_map.2 (d.ascending.imp String.ne_of_lt)

theorem get?_eq_some_iff {d : Dict α} {key : String} {value : α} :
    d.get? key = some value ↔ (key, value) ∈ d.entries := by
  have hfirst (entries : List (String × α)) (hnodup : (entries.map (·.1)).Nodup) :
      (entries.find? (·.1 == key)).map (·.2) = some value ↔ (key, value) ∈ entries := by
    induction entries with
    | nil => simp
    | cons e entries ih =>
      obtain ⟨k, v⟩ := e
      obtain ⟨hout, hrest⟩ := List.nodup_cons.1 hnodup
      by_cases hk : k = key
      · subst hk
        have hnone : (k, value) ∉ entries := fun h => hout (List.mem_map.2 ⟨_, h, rfl⟩)
        simp [hnone, eq_comm]
      · simpa [hk, Ne.symm hk] using ih hrest
  exact hfirst d.entries d.nodup_keys

theorem mem_keys_iff {d : Dict α} {key : String} :
    key ∈ d.keys ↔ ∃ value, d.get? key = some value := by
  simp [keys, get?_eq_some_iff]

@[simp] theorem get?_empty (key : String) : (empty : Dict α).get? key = none := rfl

theorem get?_insert (d : Dict α) (key k : String) (value : α) :
    (d.insert key value).get? k = if k = key then some value else d.get? k := by
  have hfind (entries : List (String × α)) :
      ((insertEntry key value entries).find? (·.1 == k)).map (·.2) =
        if k = key then some value else (entries.find? (·.1 == k)).map (·.2) := by
    induction entries with
    | nil =>
      by_cases h : k = key
      · simp [insertEntry, h]
      · simp [insertEntry, h, Ne.symm h]
    | cons e entries ih =>
      obtain ⟨l, v⟩ := e
      unfold insertEntry
      split
      · by_cases h : k = key
        · simp [h]
        · simp [h, Ne.symm h]
      · split
        next heq =>
          subst heq
          by_cases h : k = key
          · simp [h]
          · simp [h, Ne.symm h]
        next hne =>
          by_cases h : l = k
          · subst h
            simp [Ne.symm hne]
          · simpa [h] using ih
  exact hfind d.entries

theorem get?_erase (d : Dict α) (key k : String) :
    (d.erase key).get? k = if k = key then none else d.get? k := by
  apply Option.ext
  intro value
  rw [get?_eq_some_iff]
  by_cases h : k = key <;> simp [erase, h, get?_eq_some_iff]

theorem contains_eq_isSome (d : Dict α) (key : String) :
    d.contains key = (d.get? key).isSome := by
  unfold contains get?
  rw [Option.isSome_map, Bool.eq_iff_iff, List.find?_isSome, List.any_eq_true]

/-- A key of a union has the value of the first map, if it has one there. -/
theorem get?_union (d other : Dict α) (key : String) :
    (d.union other).get? key = (d.get? key).or (other.get? key) := by
  have hfold (entries : List (String × α)) (hnodup : (entries.map (·.1)).Nodup) (start : Dict α) :
      (entries.foldl (fun acc e => acc.insert e.1 e.2) start).get? key =
        ((entries.find? (·.1 == key)).map (·.2)).or (start.get? key) := by
    induction entries generalizing start with
    | nil => rfl
    | cons e entries ih =>
      obtain ⟨k, v⟩ := e
      obtain ⟨hfresh, hrest⟩ := List.nodup_cons.1 hnodup
      rw [List.foldl_cons, ih hrest, get?_insert]
      by_cases hkey : k = key
      · -- no later entry has the key of the first one
        have hnone : entries.find? (·.1 == key) = none := by
          rw [List.find?_eq_none]
          intro later hlater hsame
          have hsame : later.1 = k := (beq_iff_eq.1 hsame).trans hkey.symm
          exact hfresh (List.mem_map.2 ⟨later, hlater, hsame⟩)
        simp [hnone, hkey]
      · simp [hkey, Ne.symm hkey]
  exact hfold d.entries d.nodup_keys other

/-- Entering a value that a key already has changes nothing. -/
theorem insert_of_get? {d : Dict α} {key : String} {value : α} (h : d.get? key = some value) :
    d.insert key value = d := by
  have hkept (entries : List (String × α)) (hascending : entries.Pairwise fun a b => a.1 < b.1)
      (hmem : (key, value) ∈ entries) : insertEntry key value entries = entries := by
    induction entries with
    | nil => cases hmem
    | cons e entries ih =>
      obtain ⟨hfirst, hrest⟩ := List.pairwise_cons.1 hascending
      rcases List.mem_cons.1 hmem with rfl | hmem
      · simp [insertEntry]
      · have habove : e.1 < key := hfirst _ hmem
        have hnot : ¬ key < e.1 := fun hlt => String.lt_irrefl _ (String.lt_trans habove hlt)
        have hne : key ≠ e.1 := (String.ne_of_lt habove).symm
        simp [insertEntry, hnot, hne, ih hrest hmem]
  exact ext (hkept d.entries d.ascending (get?_eq_some_iff.1 h))

/-- A key above all others goes to the end. -/
theorem insertEntry_append {key : String} {value : α} {entries : List (String × α)}
    (h : ∀ e ∈ entries, e.1 < key) : insertEntry key value entries = entries ++ [(key, value)] := by
  induction entries with
  | nil => rfl
  | cons e entries ih =>
    obtain ⟨hfirst, hrest⟩ := List.forall_mem_cons.1 h
    have hnot : ¬ key < e.1 := fun hlt => String.lt_irrefl _ (String.lt_trans hfirst hlt)
    have hne : key ≠ e.1 := (String.ne_of_lt hfirst).symm
    simp [insertEntry, hnot, hne, ih hrest]

/-- A map is made of its own entries. -/
theorem ofList_entries (d : Dict α) : ofList d.entries = d := by
  have hfold (entries : List (String × α)) (start : Dict α)
      (h : (start.entries ++ entries).Pairwise fun a b => a.1 < b.1) :
      (entries.foldl (fun d e => d.insert e.1 e.2) start).entries = start.entries ++ entries := by
    induction entries generalizing start with
    | nil => simp
    | cons e entries ih =>
      have hbelow : ∀ a ∈ start.entries, a.1 < e.1 := fun a ha =>
        (List.pairwise_append.1 h).2.2 a ha e (by simp)
      have hinsert : (start.insert e.1 e.2).entries = start.entries ++ [e] :=
        insertEntry_append hbelow
      rw [List.foldl_cons, ih, hinsert]
      · simp
      · rw [hinsert]
        simpa using h
  exact ext (hfold d.entries empty d.ascending)

end QuantumSim.Dict
