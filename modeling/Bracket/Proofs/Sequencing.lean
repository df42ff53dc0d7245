import Mathlib.Logic.Basic
import Bracket.Eval.Run
import Bracket.Proofs.Chains

/-!
# Bracket.Proofs.Sequencing

When a comma means "and then" (`comma_sequences`).

All chunks of a list are reduced before the operands that are left are evaluated, so what stands
before a comma is in general not finished when the reduction of what stands after it begins. It is,
if it leaves nothing to evaluate but results, or if there is nothing to reduce after the comma.
Empty chunks are never seen at all.
-/

namespace Bracket

namespace Evaluator

variable {σ : Type} {e : Evaluator σ}

theorem reduceChunks_append (xs ys : List (List Operand)) :
    e.reduceChunks (xs ++ ys) = (do
      let left ← e.reduceChunks xs
      let rest ← e.reduceChunks ys
      pure (left ++ rest)) := by
  induction xs with
  | nil => simp [reduceChunks]
  | cons chunk xs ih =>
    simp only [List.cons_append, reduceChunks, ih, bind_assoc, pure_bind, List.append_assoc]

theorem lastOf_append (xs ys : List Operand) (last : Value) :
    e.lastOf last (xs ++ ys) = e.lastOf last xs >>= fun v => e.lastOf v ys := by
  induction xs generalizing last with
  | nil => rfl
  | cons x xs ih => simp only [List.cons_append, lastOf, ih, bind_assoc]

theorem terms_comma (a b : Group) :
    e.terms (a ++ .op .comma :: b) = (do
      let left ← e.reduceChunks (chunks a)
      let rest ← e.reduceChunks (chunks b)
      let v ← e.lastOf .null left
      e.lastOf v rest) := by
  simp only [terms, chunks_comma, reduceChunks_append, lastOf_append, bind_assoc, pure_bind]

/-! ## Nothing to reduce -/

theorem reduceChunk_of_clear {chunk : List Operand} (h : Clear Tier.all chunk) :
    e.reduceChunk chunk = pure chunk :=
  Eval.some_injective ((splicing_eq e chunk).symm.trans (splicing_of_clear h))

theorem reduceChunks_of_clear {others : List (List Operand)}
    (h : ∀ chunk ∈ others, Clear Tier.all chunk) :
    e.reduceChunks others = pure others.flatten := by
  induction others with
  | nil => rfl
  | cons chunk others ih =>
    obtain ⟨hchunk, hothers⟩ := List.forall_mem_cons.mp h
    simp only [reduceChunks, reduceChunk_of_clear hchunk, ih hothers, pure_bind, List.flatten_cons]

/-- No operator is in the chunks of a list that has none but commas. -/
theorem clear_of_only_commas {g : Group} (h : ∀ t ∈ g, t.op? = none ∨ t.op? = some .comma) :
    ∀ chunk ∈ chunks g, Clear Tier.all chunk := by
  intro chunk hchunk x hx tier _
  obtain ⟨t, ht, rfl, hcomma⟩ := mem_chunks hchunk hx
  have hop : (Operand.source t).op? = none := (h t ht).resolve_right hcomma
  rw [Tier.op?, hop]

/-! ## Nothing left to evaluate -/

theorem reduceChunk_yields_results {chunk : List Operand}
    (h : chunk ≠ [] → Chain chunk ∧ 1 < chunk.length) :
    Eval.Yields (fun left => ∀ x ∈ left, ∃ v, x = .reduced v) (e.reduceChunk chunk) := by
  by_cases hempty : chunk = []
  · subst hempty
    rw [reduceChunk_of_clear .nil]
    exact .pure fun x hx => absurd hx List.not_mem_nil
  · obtain ⟨hchain, hlength⟩ := h hempty
    intro s left t hleft
    obtain ⟨x, hx, -, rfl | ⟨v, rfl⟩⟩ := yields_reduceChunk (splicing_chain hchain) s left t hleft
    · simp at hlength
    · cases hx
      exact fun y hy => ⟨v, List.mem_singleton.mp hy⟩

theorem reduceChunks_yields_results {others : List (List Operand)}
    (h : ∀ chunk ∈ others, chunk ≠ [] → Chain chunk ∧ 1 < chunk.length) :
    Eval.Yields (fun left => ∀ x ∈ left, ∃ v, x = .reduced v) (e.reduceChunks others) := by
  induction others with
  | nil => exact .pure fun x hx => absurd hx List.not_mem_nil
  | cons chunk others ih =>
    obtain ⟨hchunk, hothers⟩ := List.forall_mem_cons.mp h
    refine (reduceChunk_yields_results hchunk).bind fun left hleft => ?_
    refine (ih hothers).bind fun rest hrest => ?_
    exact .pure (List.forall_mem_append.mpr ⟨hleft, hrest⟩)

/-- The last of some results is known without evaluating anything. -/
theorem lastOf_results {operands : List Operand} (h : ∀ x ∈ operands, ∃ v, x = .reduced v) :
    ∀ last, ∃ v, e.lastOf last operands = pure v := by
  induction operands with
  | nil => exact fun last => ⟨last, rfl⟩
  | cons x operands ih =>
    intro last
    obtain ⟨⟨v, rfl⟩, hoperands⟩ := List.forall_mem_cons.mp h
    exact ih hoperands (Value.ofLiteral v)

/-! ## The value -/

/-- An operand is left of a chunk if and only if one was in it. -/
theorem splicing_yields_operand {chunk : List Operand} (hcomma : ∀ x ∈ chunk, x.op? ≠ some .comma) :
    Eval.Yields (fun found => ∃ left, found = some left ∧ (left ≠ [] ↔ ∃ x ∈ chunk, x.op? = none))
      (e.splicing chunk) := by
  induction chunk using turns_induction with
  | finished chunk hturn hclear =>
    rw [splicing_of_clear hclear]
    refine .pure ⟨chunk, rfl, fun h => ?_, ?_⟩
    · obtain ⟨x, hx⟩ := List.exists_mem_of_ne_nil chunk h
      exact ⟨x, hx, hclear.op?_eq_none hx (hcomma x hx)⟩
    · rintro ⟨x, hx, -⟩
      exact List.ne_nil_of_mem hx
  | missing chunk err hturn =>
    rw [splicing_missing hturn]
    exact .fail err
  | reduce a b left x right op tier hturn hleft hx hright ih =>
    rw [splicing_reduce hturn]
    refine (Eval.Yields.any _).bind fun v _ s found t hfound => ?_
    have hcomma' : ∀ y ∈ a ++ .reduced v :: b, y.op? ≠ some .comma := by
      intro y hy
      rcases List.mem_append.mp hy with hy | hy
      · exact hcomma y (by simp [hy])
      rcases List.mem_cons.mp hy with rfl | hy
      · nofun
      · exact hcomma y (by simp [hy])
    obtain ⟨rest, hrest, hiff⟩ := ih v hcomma' s found t hfound
    -- there was an operand, and there is one
    exact ⟨rest, hrest, iff_of_true (hiff.mpr ⟨.reduced v, by simp, rfl⟩)
      ⟨left, by simp, hleft⟩⟩

theorem reduceChunks_yields_operand {others : List (List Operand)}
    (hcomma : ∀ x ∈ others.flatten, x.op? ≠ some .comma) :
    Eval.Yields (fun left => left ≠ [] ↔ ∃ x ∈ others.flatten, x.op? = none)
      (e.reduceChunks others) := by
  induction others with
  | nil => exact .pure (by simp)
  | cons chunk others ih =>
    rw [List.flatten_cons, List.forall_mem_append] at hcomma
    have hchunk := yields_reduceChunk (splicing_yields_operand (e := e) hcomma.1)
    refine hchunk.bind fun left hleft => (ih hcomma.2).bind fun rest hrest => .pure ?_
    obtain ⟨_, heq, hleft⟩ := hleft
    cases heq
    rw [ne_eq, List.append_eq_nil_iff, not_and_or, List.flatten_cons]
    simp only [List.mem_append, or_and_right, exists_or]
    exact or_congr hleft hrest

/-- The value of some operands does not depend on what was evaluated before them. -/
theorem lastOf_eq (v : Value) (operands : List Operand) :
    e.lastOf v operands =
      e.lastOf .null operands >>= fun w => pure (if operands ≠ [] then w else v) := by
  cases operands with
  | nil => rfl
  | cons x operands => simp [lastOf]

/-- A list that begins from a value gives it back if there is no operand in the list. -/
theorem lastOf_terms (v : Value) (g : Group) :
    e.reduceChunks (chunks g) >>= e.lastOf v =
      e.terms g >>= fun w => pure (if g.any (·.op?.isNone) then w else v) := by
  have hcomma : ∀ x ∈ (chunks g).flatten, x.op? ≠ some .comma := by
    intro x hx
    obtain ⟨chunk, hchunk, hx⟩ := List.mem_flatten.mp hx
    obtain ⟨t, -, rfl, hcomma⟩ := mem_chunks hchunk hx
    exact hcomma
  have hany : g.any (·.op?.isNone) = true ↔ ∃ x ∈ (chunks g).flatten, x.op? = none := by
    rw [flatten_chunks, List.any_eq_true]
    constructor
    · rintro ⟨t, ht, hop⟩
      have hop : t.op? = none := Option.isNone_iff_eq_none.mp hop
      exact ⟨.source t, List.mem_map_of_mem (List.mem_filter.mpr ⟨ht, by simp [hop]⟩), hop⟩
    · rintro ⟨x, hx, hop⟩
      obtain ⟨t, ht, rfl⟩ := List.mem_map.mp hx
      exact ⟨t, (List.mem_filter.mp ht).1, Option.isNone_iff_eq_none.mpr hop⟩
  rw [terms, bind_assoc]
  refine (reduceChunks_yields_operand hcomma).bind_congr fun left hleft => ?_
  rw [lastOf_eq]
  simp only [hleft, ← hany]

/-! ## Sequences -/

theorem terms_sequence {a b : Group}
    (h : (∀ chunk ∈ chunks a, chunk ≠ [] → Chain chunk ∧ 1 < chunk.length) ∨
      ∀ t ∈ b, t.op? = none ∨ t.op? = some .comma) :
    e.terms (a ++ .op .comma :: b) = (do
      let v ← e.terms a
      let w ← e.terms b
      pure (if b.any (·.op?.isNone) then w else v)) := by
  have hcommute : e.terms (a ++ .op .comma :: b) = (do
      let v ← e.terms a
      e.reduceChunks (chunks b) >>= e.lastOf v) := by
    rw [terms_comma, terms, bind_assoc]
    rcases h with hresults | hcommas
    · refine (reduceChunks_yields_results hresults).bind_congr fun left hleft => ?_
      obtain ⟨v, hv⟩ := lastOf_results (e := e) hleft .null
      simp only [hv, pure_bind]
    · simp only [reduceChunks_of_clear (clear_of_only_commas hcommas), pure_bind]
  rw [hcommute]
  congr 1
  funext v
  exact lastOf_terms v b

end Evaluator

/-! ## Empty chunks -/

/-- The second list is the first one with further commas, each at an end of the list or next to
another comma. -/
inductive Padded (g : Group) : Group → Prop where
  | refl : Padded g g
  | comma {a b : Group} : Padded g (a ++ b) →
      (a = [] ∨ b = [] ∨ a.getLast?.bind Term.op? = some .comma ∨
        b.head?.bind Term.op? = some .comma) →
      Padded g (a ++ .op .comma :: b)

/-- The chunks with something in them. -/
def solidChunks (g : Group) : List (List Operand) := (chunks g).filter fun chunk => !chunk.isEmpty

theorem solidChunks_comma (a b : Group) :
    solidChunks (a ++ .op .comma :: b) = solidChunks a ++ solidChunks b := by
  rw [solidChunks, chunks_comma, List.filter_append]
  rfl

theorem Term.eq_of_op? {t : Term} {op : Op} (h : t.op? = some op) : t = .op op := by
  cases t with
  | op o => exact congrArg _ (Option.some.inj h)
  | _ => cases h

theorem solidChunks_padded {g g' : Group} (h : Padded g g') : solidChunks g' = solidChunks g := by
  induction h with
  | refl => rfl
  | @comma a b _ hedge ih =>
    rw [← ih]
    have hempty : solidChunks [] = [] := rfl
    have hfirst : ∀ b, solidChunks (.op .comma :: b) = solidChunks b := solidChunks_comma []
    rcases hedge with rfl | rfl | hlast | hhead
    · exact hfirst b
    · rw [solidChunks_comma, hempty, List.append_nil, List.append_nil]
    · obtain ⟨t, ht, hop⟩ := Option.bind_eq_some_iff.mp hlast
      obtain ⟨a, rfl⟩ := List.getLast?_eq_some_iff.mp ht
      rw [Term.eq_of_op? hop, List.append_assoc, List.append_assoc, List.singleton_append,
        List.singleton_append, solidChunks_comma, solidChunks_comma, hfirst]
    · obtain ⟨t, ht, hop⟩ := Option.bind_eq_some_iff.mp hhead
      obtain ⟨b, rfl⟩ := List.head?_eq_some_iff.mp ht
      rw [Term.eq_of_op? hop, solidChunks_comma, solidChunks_comma, hfirst]

namespace Evaluator

variable {σ : Type} {e : Evaluator σ}

theorem reduceChunks_solid (others : List (List Operand)) :
    e.reduceChunks (others.filter fun chunk => !chunk.isEmpty) = e.reduceChunks others := by
  induction others with
  | nil => rfl
  | cons chunk others ih =>
    cases chunk with
    | nil =>
      have hnil : e.reduceChunk [] = pure [] := reduceChunk_of_clear .nil
      simp [reduceChunks, hnil, ih]
    | cons x chunk => simp [reduceChunks, ih]

theorem terms_padded {g g' : Group} (h : Padded g g') : e.terms g' = e.terms g := by
  rw [terms, terms, ← reduceChunks_solid (chunks g'), ← reduceChunks_solid (chunks g)]
  exact congrArg (e.reduceChunks · >>= e.lastOf .null) (solidChunks_padded h)

end Evaluator

/-- If every chunk before a comma is one chain with an operator, or if no operator but commas comes
after it, the list does what its two parts do one after the other, failures and changes included,
and has the value of the last part that has an operand. Whatever a list is, commas that only make
empty chunks change nothing. -/
theorem comma_sequences (m : Machine) :
    (∀ a b : Group,
      ((∀ chunk ∈ chunks a, chunk ≠ [] → Chain chunk ∧ 1 < chunk.length) ∨
        ∀ t ∈ b, t.op? = none ∨ t.op? = some .comma) →
      m.evalTerms (a ++ .op .comma :: b) = (do
        let v ← m.evalTerms a
        let w ← m.evalTerms b
        pure (if b.any (·.op?.isNone) then w else v))) ∧
    ∀ g g', Padded g g' → m.evalTerms g' = m.evalTerms g :=
  ⟨fun _ _ h => Evaluator.terms_sequence h, fun _ _ h => Evaluator.terms_padded h⟩

/-- `x = f,` and then `x + 1`; a line printed and then nothing; commas around and between two
names. -/
theorem comma_sequences_assignment :
    let m : Machine := { patience := 0 }
    let a : Group := [.ident "x", .op .assign, .ident "f", .op .comma]
    let b : Group := [.ident "x", .op .add, .literal (some 1.0)]
    let line : Group := [.call "print" (some [.ident "x"])]
    let names : Group := [.ident "x", .op .comma, .ident "y"]
    let padded : Group :=
      [.op .comma, .ident "x", .op .comma, .op .comma, .ident "y", .op .comma]
    (∀ chunk ∈ chunks a, chunk ≠ [] → Chain chunk ∧ 1 < chunk.length) ∧
    m.evalTerms (a ++ .op .comma :: b) =
      (m.evalTerms a >>= fun v => m.evalTerms b >>= fun w => pure (if true then w else v)) ∧
    m.evalTerms (line ++ .op .comma :: [.op .comma]) =
      (m.evalTerms line >>= fun v =>
        m.evalTerms [.op .comma] >>= fun w => pure (if false then w else v)) ∧
    Padded names padded ∧ m.evalTerms padded = m.evalTerms names := by
  intro m a b line names padded
  obtain ⟨hsequence, hpadded⟩ := comma_sequences m
  have hchunks : chunks a =
      [[.source (.ident "x"), .source (.op .assign), .source (.ident "f")], []] := rfl
  have ha : ∀ chunk ∈ chunks a, chunk ≠ [] → Chain chunk ∧ 1 < chunk.length := by
    intro chunk hchunk hne
    rw [hchunks] at hchunk
    rcases List.mem_cons.mp hchunk with rfl | hchunk
    · exact ⟨.operator rfl rfl nofun (.operand rfl), by decide⟩
    · exact absurd (List.mem_singleton.mp hchunk) hne
  have hpad : Padded names padded :=
    have first : Padded names (.op .comma :: names) :=
      .comma (a := []) .refl (.inl rfl)
    have second : Padded names [.op .comma, .ident "x", .op .comma, .op .comma, .ident "y"] :=
      .comma (a := [.op .comma, .ident "x"]) first (.inr (.inr (.inr rfl)))
    .comma (a := [.op .comma, .ident "x", .op .comma, .op .comma, .ident "y"]) (b := []) second
      (.inr (.inl rfl))
  exact ⟨ha, hsequence a b (.inl ha), hsequence line [.op .comma] (.inr (by simp [Term.op?])), hpad,
    hpadded names padded hpad⟩

/-- In general a comma does not sequence: here the name is printed when it has been assigned to. -/
example :
    let m : Machine := { patience := 0 }
    let line : Group := [.call "print" (some [.ident "x"])]
    let assignment : Group := [.ident "x", .op .assign, .closure none []]
    (∃ d, m.evalTerms (line ++ .op .comma :: assignment) Context.fresh = .done .null d ∧
      d.transcript.text = "<closure>\n") ∧
    ∃ v d, (m.evalTerms line >>= fun _ => m.evalTerms assignment) Context.fresh = .done v d ∧
      d.transcript.text = "null\n" :=
  ⟨⟨_, rfl, by decide⟩, _, _, rfl, by decide⟩

end Bracket
