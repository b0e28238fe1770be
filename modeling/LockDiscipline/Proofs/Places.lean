import Mathlib.Data.List.Basic

/- Elements of a list together with their places. -/
namespace LockDiscipline

variable {α : Type}

/-- The places of the elements ascend. -/
theorem pairwise_zipIdx (l : List α) : l.zipIdx.Pairwise fun a b => a.2 < b.2 := by
  have hplaces : (l.zipIdx.map Prod.snd).Pairwise (· < ·) := by
    rw [List.zipIdx_map_snd]
    exact List.pairwise_lt_range'
  exact List.pairwise_map.mp hplaces

/-- Elements picked with their places are the elements picked without. -/
theorem map_fst_filter_zipIdx (l : List α) (pick : α → Bool) :
    (l.zipIdx.filter fun x => pick x.1).map Prod.fst = l.filter pick := by
  have hpicked := List.filter_map (f := Prod.fst) (p := pick) (l := l.zipIdx)
  rw [List.zipIdx_map_fst] at hpicked
  exact hpicked.symm

end LockDiscipline
