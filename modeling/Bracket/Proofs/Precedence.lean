import Bracket.Eval.Arithmetic
import Bracket.Tree.Term

/-!
# Bracket.Proofs.Precedence

Chains of operators and the trees that precedence makes of them.

A chain is operands with an operator between each two of them; an operand is a number or a chain in
brackets. `**` binds tighter than `*` and `/`, these tighter than `+` and `-`, and these tighter
than `<` and `>`. Operators of one level are grouped to the right, also `-` and `/`.

`exists_ordered` and `eq_of_terms_eq`: of the trees with the terms of a chain exactly one is grouped
in this way. That the reduction of a chain computes its value is in
`Bracket.Proofs.PrecedenceCorrect`.
-/

namespace Bracket

/-- The operators of a chain: those that compute a number from two numbers. -/
inductive ChainOp where
  | pow
  | mul
  | div
  | add
  | sub
  | less
  | greater

namespace ChainOp

def op : ChainOp → Op
  | .pow => .pow
  | .mul => .mul
  | .div => .div
  | .add => .add
  | .sub => .sub
  | .less => .less
  | .greater => .greater

/-- How loosely the operator binds. -/
def level : ChainOp → Nat
  | .pow => 0
  | .mul | .div => 1
  | .add | .sub => 2
  | .less | .greater => 3

/-- What the operator computes, for any meaning of the arithmetic operations. -/
def apply (a : Arithmetic) (o : ChainOp) (x y : Float) : Float :=
  match o with
  | .pow => a.pow x y
  | .mul => a.mul x y
  | .div => a.div x y
  | .add => a.add x y
  | .sub => a.sub x y
  | .less => if a.less x y then 1.0 else 0.0
  | .greater => if a.greater x y then 1.0 else 0.0

theorem op_injective {o o' : ChainOp} (h : o.op = o'.op) : o = o' := by
  cases o <;> cases o' <;> first | rfl | cases h

end ChainOp

/-- The terms are a chain. -/
inductive IsChain : Group → Prop where
  | number (x : Float) : IsChain [.literal (some x)]
  | group {g : Group} (content : IsChain g) : IsChain [.group g]
  | numberThen (x : Float) (o : ChainOp) {rest : Group} (tail : IsChain rest) :
      IsChain (.literal (some x) :: .op o.op :: rest)
  | groupThen {g : Group} (content : IsChain g) (o : ChainOp) {rest : Group}
      (tail : IsChain rest) : IsChain (.group g :: .op o.op :: rest)

/-- A grouping of a chain. -/
inductive OpTree where
  | number (x : Float)
  | group (content : OpTree)
  | binary (o : ChainOp) (left right : OpTree)

namespace OpTree

/-- The chain that the tree groups. -/
def terms : OpTree → Group
  | .number x => [.literal (some x)]
  | .group t => [.group t.terms]
  | .binary o l r => l.terms ++ .op o.op :: r.terms

def value (a : Arithmetic) : OpTree → Float
  | .number x => x
  | .group t => t.value a
  | .binary o l r => o.apply a (l.value a) (r.value a)

/-- How deep the brackets of the chain are nested. -/
def nesting : OpTree → Nat
  | .number _ => 0
  | .group t => t.nesting + 1
  | .binary _ l r => max l.nesting r.nesting

/-- Outside brackets the operators of an ordered tree bind tighter than the level. -/
def Below (level : Nat) : OpTree → Prop
  | .binary o _ _ => o.level < level
  | _ => True

/-- The left side of an operator binds tighter than it, the right side at least as tight. -/
def Ordered : OpTree → Prop
  | .number _ => True
  | .group t => t.Ordered
  | .binary o l r => l.Ordered ∧ r.Ordered ∧ l.Below o.level ∧ r.Below (o.level + 1)

theorem terms_ne_nil (t : OpTree) : t.terms ≠ [] := by
  cases t <;> simp [terms]

/-- No operator is at level five. -/
theorem below_five (t : OpTree) : t.Below 5 := by
  cases t with
  | binary o l r =>
    show o.level < 5
    cases o <;> decide
  | _ => trivial

/-! ## A chain has a tree -/

theorem isChain_append {us vs : Group} (hu : IsChain us) (o : ChainOp) (hv : IsChain vs) :
    IsChain (us ++ .op o.op :: vs) := by
  induction hu with
  | number x => exact .numberThen x o hv
  | group content => exact .groupThen content o hv
  | numberThen x o' _ ih => exact .numberThen x o' ih
  | groupThen content o' _ _ ih => exact .groupThen content o' ih

theorem isChain_terms (t : OpTree) : IsChain t.terms := by
  induction t with
  | number x => exact .number x
  | group t ih => exact .group ih
  | binary o l r ihl ihr => exact isChain_append ihl o ihr

/-- Puts an operand and an operator before a chain: the operator goes to the left of all that bind
as tight as it does or tighter, up to the first looser one. -/
def cons (x : OpTree) (o : ChainOp) : OpTree → OpTree
  | .binary o' l r => if o'.level ≤ o.level then .binary o x (.binary o' l r)
    else .binary o' (cons x o l) r
  | t => .binary o x t

theorem terms_cons (x : OpTree) (o : ChainOp) (t : OpTree) :
    (cons x o t).terms = x.terms ++ .op o.op :: t.terms := by
  induction t with
  | number y => rfl
  | group t => rfl
  | binary o' l r ihl _ =>
    by_cases hle : o'.level ≤ o.level
    · simp [cons, hle, terms]
    · simp [cons, hle, terms, ihl]

theorem below_cons {x : OpTree} {o : ChainOp} {t : OpTree} {n : Nat} (ho : o.level < n)
    (ht : t.Below n) : (cons x o t).Below n := by
  cases t with
  | number y => exact ho
  | group t => exact ho
  | binary o' l r =>
    by_cases hle : o'.level ≤ o.level
    · simp only [cons, if_pos hle]
      exact ho
    · simp only [cons, if_neg hle]
      exact ht

theorem ordered_cons {x : OpTree} (o : ChainOp) {t : OpTree} (hx : x.Ordered)
    (hbelow : ∀ n, x.Below n) (ht : t.Ordered) : (cons x o t).Ordered := by
  induction t with
  | number y => exact ⟨hx, ht, hbelow _, trivial⟩
  | group t => exact ⟨hx, ht, hbelow _, trivial⟩
  | binary o' l r ihl _ =>
    by_cases hle : o'.level ≤ o.level
    · simp only [cons, if_pos hle]
      exact ⟨hx, ht, hbelow _, by show o'.level < o.level + 1; omega⟩
    · simp only [cons, if_neg hle]
      obtain ⟨hl, hr, hlb, hrb⟩ := ht
      exact ⟨ihl hl, hr, below_cons (by omega) hlb, hrb⟩

theorem exists_ordered {ts : Group} (h : IsChain ts) :
    ∃ t : OpTree, t.Ordered ∧ t.terms = ts := by
  induction h with
  | number x => exact ⟨.number x, trivial, rfl⟩
  | group _ ih =>
    obtain ⟨t, ht, rfl⟩ := ih
    exact ⟨.group t, ht, rfl⟩
  | numberThen x o _ ih =>
    obtain ⟨t, ht, rfl⟩ := ih
    exact ⟨cons (.number x) o t, ordered_cons o trivial (fun _ => trivial) ht, terms_cons ..⟩
  | groupThen _ o _ ihg ih =>
    obtain ⟨g, hg, rfl⟩ := ihg
    obtain ⟨t, ht, rfl⟩ := ih
    exact ⟨cons (.group g) o t, ordered_cons o hg (fun _ => trivial) ht, terms_cons ..⟩

/-! ## A chain has no other tree -/

/-- Not only the operator at the root binds tighter than the level. -/
theorem level_lt_of_mem {t : OpTree} {n : Nat} (ht : t.Ordered) (hn : t.Below n) {o : ChainOp}
    (ho : .op o.op ∈ t.terms) : o.level < n := by
  induction t generalizing n with
  | number x => simp [terms] at ho
  | group t => simp [terms] at ho
  | binary o' l r ihl ihr =>
    obtain ⟨hl, hr, hlb, hrb⟩ := ht
    have hroot : o'.level < n := hn
    simp only [terms, List.mem_append, List.mem_cons, Term.op.injEq] at ho
    rcases ho with ho | ho | ho
    · have := ihl hl hlb ho
      omega
    · rw [ChainOp.op_injective ho]
      exact hroot
    · have := ihr hr hrb ho
      omega

/-- Two ways to cut a list at an element cut it in the same place, or each element lies in a part
of the other cut. -/
theorem eq_or_mem_of_append_cons_eq {α : Type} {us vs us' vs' : List α} {a b : α}
    (h : us ++ a :: vs = us' ++ b :: vs') :
    (us = us' ∧ a = b ∧ vs = vs') ∨ (a ∈ us' ∧ b ∈ vs) ∨ (a ∈ vs' ∧ b ∈ us) := by
  rcases List.append_eq_append_iff.mp h with ⟨ws, rfl, hws⟩ | ⟨ws, rfl, hws⟩
  · cases ws with
    | nil =>
      cases hws
      exact .inl ⟨by simp, rfl, rfl⟩
    | cons w ws =>
      cases hws
      exact .inr (.inl ⟨by simp, by simp⟩)
  · cases ws with
    | nil =>
      cases hws
      exact .inl ⟨by simp, rfl, rfl⟩
    | cons w ws =>
      cases hws
      exact .inr (.inr ⟨by simp, by simp⟩)

theorem terms_binary_ne_singleton {o : ChainOp} {l r : OpTree} {t : Term} :
    (OpTree.binary o l r).terms ≠ [t] := by
  have hl := List.length_pos_iff.mpr l.terms_ne_nil
  intro h
  have hlen := congrArg List.length h
  simp only [terms, List.length_append, List.length_cons, List.length_nil] at hlen
  omega

theorem eq_of_terms_eq {t u : OpTree} (ht : t.Ordered) (hu : u.Ordered)
    (h : t.terms = u.terms) : t = u := by
  induction t generalizing u with
  | number x =>
    cases u with
    | number y => simpa [terms] using h
    | group u => simp [terms] at h
    | binary o l r => exact absurd h.symm terms_binary_ne_singleton
  | group t ih =>
    cases u with
    | number y => simp [terms] at h
    | group u =>
      have hu : u.Ordered := hu
      have hcontent : t.terms = u.terms := by simpa [terms] using h
      rw [ih ht hu hcontent]
    | binary o l r => exact absurd h.symm terms_binary_ne_singleton
  | binary o l r ihl ihr =>
    cases u with
    | number y => exact absurd h terms_binary_ne_singleton
    | group u => exact absurd h terms_binary_ne_singleton
    | binary o' l' r' =>
      obtain ⟨hl, hr, hlb, hrb⟩ := ht
      obtain ⟨hl', hr', hlb', hrb'⟩ := hu
      rcases eq_or_mem_of_append_cons_eq h with ⟨hls, ho, hrs⟩ | ⟨ho, ho'⟩ | ⟨ho, ho'⟩
      · rw [ihl hl hl' hls, ihr hr hr' hrs, ChainOp.op_injective (Term.op.inj ho)]
      -- one operator lies left of the other, so it binds tighter and does not
      · have := level_lt_of_mem hl' hlb' ho
        have := level_lt_of_mem hr hrb ho'
        omega
      · have := level_lt_of_mem hr' hrb' ho
        have := level_lt_of_mem hl hlb ho'
        omega

end OpTree

end Bracket
