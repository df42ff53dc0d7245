import Bracket.Eval.Reduction

/-!
# Bracket.Proofs.Chunks

Cutting a list of terms at its commas.
-/

namespace Bracket

theorem chunks_ne_nil (g : Group) : chunks g ≠ [] := by
  cases g with
  | nil => exact List.cons_ne_nil _ _
  | cons t g =>
    rw [chunks]
    split
    · exact List.cons_ne_nil _ _
    · split <;> exact List.cons_ne_nil _ _

theorem chunks_of_no_comma {g : Group} (h : ∀ t ∈ g, t.op? ≠ some .comma) :
    chunks g = [g.map .source] := by
  induction g with
  | nil => rfl
  | cons t g ih =>
    obtain ⟨ht, hg⟩ := List.forall_mem_cons.mp h
    simp only [chunks, if_neg ht, ih hg, List.map_cons]

theorem chunks_comma (a b : Group) : chunks (a ++ .op .comma :: b) = chunks a ++ chunks b := by
  induction a with
  | nil => rfl
  | cons t a ih =>
    rw [List.cons_append, chunks, chunks, ih]
    split
    · rfl
    · obtain ⟨chunk, others, hchunks⟩ := List.exists_cons_of_ne_nil (chunks_ne_nil a)
      rw [hchunks]
      rfl

/-- The chunks hold the terms of the list but for its commas. -/
theorem flatten_chunks (g : Group) :
    (chunks g).flatten = (g.filter fun t => t.op? ≠ some .comma).map .source := by
  induction g with
  | nil => rfl
  | cons t g ih =>
    rw [chunks, List.filter_cons]
    split
    · rename_i hcomma
      rw [List.flatten_cons, List.nil_append, ih, if_neg (by simpa using hcomma)]
    · rename_i hcomma
      obtain ⟨chunk, others, hchunks⟩ := List.exists_cons_of_ne_nil (chunks_ne_nil g)
      rw [hchunks, List.flatten_cons] at ih
      rw [hchunks, if_pos (by simpa using hcomma), List.map_cons, ← ih]
      rfl

theorem mem_chunks {g : Group} {chunk : List Operand} (hchunk : chunk ∈ chunks g) {x : Operand}
    (hx : x ∈ chunk) : ∃ t ∈ g, x = .source t ∧ t.op? ≠ some .comma := by
  have hflatten := List.mem_flatten_of_mem hchunk hx
  rw [flatten_chunks] at hflatten
  obtain ⟨t, ht, rfl⟩ := List.mem_map.mp hflatten
  obtain ⟨ht, hcomma⟩ := List.mem_filter.mp ht
  exact ⟨t, ht, rfl, by simpa using hcomma⟩

end Bracket
