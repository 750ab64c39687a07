import Std.Data.ExtTreeMap
import Mathlib.Algebra.BigOperators.Group.List.Basic
import Mathlib.Data.List.Nodup
import Mathlib.Data.List.Perm.Basic

/-! # The total weight of a map -/

namespace MarketPeer

variable {κ V M : Type} [Ord κ] [Std.TransOrd κ]

def mapTotal [Add M] [Zero M] (weight : V → M) (m : Std.ExtTreeMap κ V) : M :=
  (m.toList.map fun e => weight e.2).sum

def entriesAt (m : Std.ExtTreeMap κ V) (k : κ) : List (κ × V) := (m[k]?).toList.map fun v => (k, v)

variable [Std.LawfulEqOrd κ]

theorem nodup_toList (m : Std.ExtTreeMap κ V) : m.toList.Nodup := by
  refine m.distinct_keys_toList.imp ?_
  rintro a b hne rfl
  exact hne Std.ReflCmp.compare_self

variable [DecidableEq κ] [AddCommMonoid M]

/-- A map is its entry at `k` and the rest. -/
theorem toList_perm_at (m : Std.ExtTreeMap κ V) (k : κ) :
    m.toList.Perm (entriesAt m k ++ m.toList.filter (·.1 ≠ k)) := by
  have hnodup : (entriesAt m k ++ m.toList.filter (·.1 ≠ k)).Nodup := by
    rw [List.nodup_append]
    refine ⟨?_, (nodup_toList m).filter _, ?_⟩
    · unfold entriesAt
      cases m[k]? <;> simp
    · intro a ha b hb hab
      simp only [entriesAt, List.mem_map, List.mem_filter, decide_eq_true_eq] at ha hb
      obtain ⟨v, -, rfl⟩ := ha
      exact hb.2 (by rw [← hab])
  rw [List.perm_ext_iff_of_nodup (nodup_toList m) hnodup]
  rintro ⟨k', v⟩
  simp only [entriesAt, List.mem_append, List.mem_map, Option.mem_toList, List.mem_filter,
    Std.ExtTreeMap.mem_toList_iff_getElem?_eq_some, Prod.mk.injEq, decide_eq_true_eq]
  by_cases hk : k = k'
  · subst hk; simp
  · simp [hk, Ne.symm hk]

theorem toList_insert_filter_perm (m : Std.ExtTreeMap κ V) (k : κ) (v : V) :
    ((m.insert k v).toList.filter (·.1 ≠ k)).Perm (m.toList.filter (·.1 ≠ k)) := by
  rw [List.perm_ext_iff_of_nodup ((nodup_toList _).filter _) ((nodup_toList _).filter _)]
  rintro ⟨k', v'⟩
  simp only [List.mem_filter, Std.ExtTreeMap.mem_toList_iff_getElem?_eq_some, decide_eq_true_eq]
  refine and_congr_left fun hk => ?_
  rw [Std.ExtTreeMap.getElem?_insert, if_neg]
  rw [Std.LawfulEqCmp.compare_eq_iff_eq]
  exact Ne.symm hk

/-- The same for a weight that depends on the key. -/
def mapSum (weight : κ → V → M) (m : Std.ExtTreeMap κ V) : M :=
  (m.toList.map fun e => weight e.1 e.2).sum

theorem mapSum_at (weight : κ → V → M) (m : Std.ExtTreeMap κ V) (k : κ) :
    mapSum weight m =
      (m[k]?).elim 0 (weight k) + ((m.toList.filter (·.1 ≠ k)).map fun e => weight e.1 e.2).sum := by
  rw [mapSum, ((toList_perm_at m k).map _).sum_eq, List.map_append, List.sum_append]
  congr 1
  unfold entriesAt
  cases m[k]? <;> simp

/-- Inserting swaps the weight that was at `k` for the new one. -/
theorem mapSum_insert (weight : κ → V → M) (m : Std.ExtTreeMap κ V) (k : κ) (v : V) :
    mapSum weight (m.insert k v) + (m[k]?).elim 0 (weight k) = mapSum weight m + weight k v := by
  rw [mapSum_at weight (m.insert k v) k, mapSum_at weight m k, Std.ExtTreeMap.getElem?_insert_self,
    ((toList_insert_filter_perm m k v).map _).sum_eq, Option.elim_some]
  generalize ((m.toList.filter (·.1 ≠ k)).map fun e => weight e.1 e.2).sum = rest
  rw [add_comm (weight k v), add_comm _ ((m[k]?).elim 0 (weight k)), add_assoc]

theorem mapTotal_insert (weight : V → M) (m : Std.ExtTreeMap κ V) (k : κ) (v : V) :
    mapTotal weight (m.insert k v) + (m[k]?).elim 0 weight = mapTotal weight m + weight v :=
  mapSum_insert (fun _ => weight) m k v

end MarketPeer
