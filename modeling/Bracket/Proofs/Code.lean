import Mathlib.Data.List.Chain
import Bracket.Proofs.Writes

/-!
# Bracket.Proofs.Code

The code that an evaluation can run. A call runs the body of a closure found in a frame, so what may
run is not to be read off the tree alone. `Code` bounds it: lists of terms and closures, with
whatever stands in a list and with the body of each closure.

Evaluation takes lists apart into chunks and puts literals in the place of operators with their
operands. What stands directly left of an `=` while this goes on stood there in a list of the code
(`Code.Row`), or it is a literal and no target.
-/

namespace Bracket

/-- The lists of terms directly inside a term. -/
def Term.parts : Term → List Group
  | .group g | .loop _ g | .brk _ g | .closure _ g | .call _ (some g) => [g]
  | .cond test whenTrue whenFalse => [test, whenTrue, whenFalse]
  | .literal _ | .ident _ | .op _ | .call _ none => []

/-- Lists of terms and closures, closed under what running them can get at. -/
structure Code where
  lists : Group → Prop
  closures : Option String → Group → Prop
  part {g h : Group} {t : Term} : lists g → t ∈ g → h ∈ t.parts → lists h
  written {g : Group} {param : Option String} {body : Group} :
    lists g → .closure param body ∈ g → closures param body
  body {param : Option String} {body : Group} : closures param body → lists body

/-- Nothing is left out. -/
def Code.any : Code where
  lists _ := True
  closures _ _ := True
  part _ _ _ := trivial
  written _ _ := trivial
  body _ := trivial

namespace Code

variable (K : Code)

/-- The name stands directly left of an `=`. -/
def Target (name : String) : Prop := ∃ g, K.lists g ∧ [.ident name, .op .assign] <:+: g

/-- Only closures are made of code. -/
def Made : Value → Prop
  | .closure param body => K.closures param body
  | _ => True

/-- What may be written, and where. -/
def May (name : String) (v : Value) : Prop := K.Target name ∧ K.Made v

def Runs (t : Term) : Prop := ∃ g, K.lists g ∧ t ∈ g

/-! ## Operands -/

def Takes : Operand → Prop
  | .source t => K.Runs t
  | .reduced _ => True

/-- The second operand, directly behind the first, does not make a new target of it. -/
def Before (x y : Operand) : Prop :=
  ∀ name, x = .source (.ident name) → y.op? = some .assign → K.Target name

/-- A chunk of a list, perhaps with some operators reduced. -/
structure Row (l : List Operand) : Prop where
  takes : ∀ x ∈ l, K.Takes x
  before : l.IsChain K.Before

variable {K : Code}

theorem made_ofLiteral (v : Option Float) : K.Made (Value.ofLiteral v) := by
  cases v <;> trivial

theorem Runs.part {t : Term} {h : Group} (ht : K.Runs t) (hpart : h ∈ t.parts) : K.lists h := by
  obtain ⟨g, hg, hmem⟩ := ht
  exact K.part hg hmem hpart

/-- A literal may stand before and behind anything. -/
theorem Row.reduce {a b : List Operand} {left x right : Operand} (v : Option Float)
    (h : K.Row (a ++ left :: x :: right :: b)) : K.Row (a ++ .reduced v :: b) := by
  obtain ⟨takes, before⟩ := h
  obtain ⟨htakes, htakes'⟩ := List.forall_mem_append.mp takes
  constructor
  · refine List.forall_mem_append.mpr ⟨htakes, List.forall_mem_cons.mpr ⟨trivial, ?_⟩⟩
    exact fun y hy => htakes' y (List.mem_cons_of_mem _ (List.mem_cons_of_mem _
      (List.mem_cons_of_mem _ hy)))
  · obtain ⟨ha, hb, -⟩ := List.isChain_append.mp before
    refine List.isChain_append.mpr ⟨ha, List.isChain_cons.mpr ⟨?_, hb.tail.tail.tail⟩, ?_⟩
    · intro y _ name hname
      cases hname
    · intro y _ z hz name _ hop
      cases hz
      cases hop

/-- An `=` that is about to be reduced has its target in front of it. -/
theorem Row.target {a b : List Operand} {name : String} {x : Operand}
    (h : K.Row (a ++ .source (.ident name) :: x :: b)) (hx : x.op? = some .assign) :
    K.Target name :=
  (List.isChain_append_cons_cons.mp h.before).2.1 name rfl hx

theorem op?_of_tier {tier : Tier} {x : Operand} {op : Op} (h : tier.op? x = some op) :
    x.op? = some op := by
  unfold Tier.op? at h
  split at h
  · rename_i o ho
    split at h
    · cases h
      exact ho
    · cases h
  · cases h

/-! ## Chunks -/

/-- The first chunk begins the list, and all of them are stretches of it. -/
theorem chunks_infix (g : Group) :
    ∃ h others, chunks g = h.map .source :: others ∧ h <+: g ∧
      ∀ chunk ∈ others, ∃ h, chunk = h.map .source ∧ h <:+: g := by
  induction g with
  | nil => exact ⟨[], [], rfl, List.prefix_refl _, fun _ hc => absurd hc List.not_mem_nil⟩
  | cons t g ih =>
    obtain ⟨h, others, heq, hh, hothers⟩ := ih
    have hlonger : ∀ {h : Group}, h <:+: g → h <:+: t :: g := fun hh =>
      hh.trans (List.suffix_cons t g).isInfix
    have hothers' : ∀ chunk ∈ others, ∃ h, chunk = h.map Operand.source ∧ h <:+: t :: g := by
      intro chunk hc
      obtain ⟨h, hchunk, hh⟩ := hothers chunk hc
      exact ⟨h, hchunk, hlonger hh⟩
    unfold chunks
    rw [heq]
    -- a comma ends the chunk before it, so what was the first one is now among the others
    split
    · refine ⟨[], _, rfl, List.nil_prefix, List.forall_mem_cons.mpr ⟨?_, hothers'⟩⟩
      exact ⟨h, rfl, hlonger hh.isInfix⟩
    · exact ⟨t :: h, others, rfl, List.cons_prefix_cons.mpr ⟨rfl, hh⟩, hothers'⟩

theorem row_of_infix {g h : Group} (hg : K.lists g) (hh : h <:+: g) :
    K.Row (h.map .source) := by
  constructor
  · intro x hx
    obtain ⟨t, ht, rfl⟩ := List.mem_map.mp hx
    exact ⟨g, hg, hh.subset ht⟩
  · refine (List.isChain_map _).mpr ((List.isChain_isInfix h).imp ?_)
    intro s t hst name hs ht
    cases hs
    cases t with
    | op o =>
      cases ht
      exact ⟨g, hg, hst.trans hh⟩
    | _ => cases ht

theorem row_of_chunk {g : Group} (hg : K.lists g) {chunk : List Operand}
    (hchunk : chunk ∈ chunks g) : K.Row chunk := by
  obtain ⟨h, others, heq, hh, hothers⟩ := chunks_infix g
  rw [heq] at hchunk
  rcases List.mem_cons.mp hchunk with rfl | hchunk
  · exact row_of_infix hg hh.isInfix
  · obtain ⟨h, rfl, hh⟩ := hothers chunk hchunk
    exact row_of_infix hg hh

end Code

end Bracket
