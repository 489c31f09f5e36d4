import Mathlib
import QuantumSim.Counts
import QuantumSim.Proofs.Dict

/-!
Counts as tallies of lists of bit strings. Adding occurrences to a bit string that is there already
adds them to its count, so that nothing that was counted gets lost, and the total is the length of
the list.
-/
namespace QuantumSim.Counts

variable {c : Counts} {texts : List String}

/-- The counts of the members of a list, with a key for each of them and no other. -/
structure Tallies (c : Counts) (texts : List String) : Prop where
  get (text : String) : (c.get text).toNat = texts.count text
  mem_keys (text : String) : text ∈ c.table.keys ↔ text ∈ texts

theorem tallies_empty : empty.Tallies [] :=
  ⟨fun _ => rfl, fun _ => by simp [empty, Dict.mem_keys_iff]⟩

theorem Tallies.perm {texts' : List String} (h : c.Tallies texts) (hperm : texts.Perm texts') :
    c.Tallies texts' :=
  ⟨fun text => (h.get text).trans (hperm.count_eq text),
    fun text => (h.mem_keys text).trans hperm.mem_iff⟩

theorem get_insert (c : Counts) (bits text : String) (n : UInt64) :
    (c.insert bits n).get text = if text = bits then c.get text + n else c.get text := by
  simp only [get, insert, Dict.get?_insert]
  split
  next heq => simp [heq]
  next => rfl

/-- Occurrences are added to those that were counted before. -/
theorem Tallies.insert (h : c.Tallies texts) (text : String) {n : UInt64} (hn : n ≠ 0)
    (hsmall : texts.length + n.toNat < UInt64.size) :
    (c.insert text n).Tallies (texts ++ .replicate n.toNat text) := by
  have hpos : n.toNat ≠ 0 := fun h => hn (UInt64.toNat_inj.1 h)
  constructor
  · intro k
    rw [get_insert, List.count_append, List.count_replicate, ← h.get]
    by_cases hk : k = text
    · have hcount : (c.get k).toNat ≤ texts.length := h.get k ▸ List.count_le_length
      rw [if_pos hk, if_pos (by simpa using hk.symm), UInt64.toNat_add]
      exact Nat.mod_eq_of_lt (by
        have hsize : UInt64.size = 2 ^ 64 := rfl
        omega)
    · rw [if_neg hk, if_neg (by simpa using Ne.symm hk), Nat.add_zero]
  · intro k
    have hkeys : k ∈ (c.insert text n).table.keys ↔ k = text ∨ k ∈ c.table.keys := by
      simp only [Counts.insert, Dict.mem_keys_iff, Dict.get?_insert]
      by_cases hk : k = text <;> simp [hk]
    rw [hkeys, h.mem_keys, List.mem_append, List.mem_replicate, or_comm]
    simp [hpos]

/-- Distinct keys that cover a list have its length as the sum of their counts. -/
theorem sum_count_of_subset {keys texts : List String} (hkeys : keys.Nodup) (h : texts ⊆ keys) :
    (keys.map fun text => texts.count text).sum = texts.length := by
  have hcover : ∀ text ∈ (texts : Multiset String), text ∈ keys.toFinset := fun text htext =>
    List.mem_toFinset.2 (h htext)
  rw [← List.sum_toFinset _ hkeys]
  simpa using Multiset.sum_count_eq_card hcover

/-- The total counts every member once. -/
theorem Tallies.total_eq (h : c.Tallies texts) : c.total = texts.length := by
  have hvalue (e : String × UInt64) (he : e ∈ c.table.entries) :
      e.2.toNat = texts.count e.1 := by
    have hget : c.get e.1 = e.2 := by
      rw [Counts.get, Dict.get?_eq_some_iff.2 he, Option.getD_some]
    rw [← h.get, hget]
  calc c.total = (c.table.entries.map fun e => e.2.toNat).sum := by
        rw [total, Dict.values, List.foldl_map, List.sum_eq_foldl, List.foldl_map]
    _ = (c.table.keys.map fun text => texts.count text).sum := by
        rw [Dict.keys, List.map_map]
        exact congrArg List.sum (List.map_congr_left hvalue)
    _ = texts.length :=
        sum_count_of_subset c.table.nodup_keys fun text htext => (h.mem_keys text).2 htext

end QuantumSim.Counts
