import Mathlib.Data.List.Forall2
import Mathlib.Logic.Relation
import Bracket.Proofs.Frames

/-!
# Bracket.Proofs.Writes

What evaluation does to the frames that were there first. However deeply brackets and calls are
nested, they are only ever written to, one name at a time: a local frame where it holds the name,
the global frame anywhere.

Which names and values are written is left open (`may`). A local frame may be out of sight while
calls are in progress, so `Written` follows it through the guards, below the frames that were pushed
since. What a write leaves as it was is said for one write, and carried over to any number of them.
-/

namespace Bracket

namespace Frame

theorem get?_set (f : Frame) (name other : String) (v : Value) :
    (f.set name v).get? other = if other = name then some v else f.get? other := by
  induction f with
  | nil =>
    unfold set get?
    split
    · rename_i h
      rw [h, List.lookup_cons_self]
    · rename_i h
      rw [List.lookup_cons, beq_false_of_ne h]
  | cons b f ih =>
    obtain ⟨n, w⟩ := b
    unfold get? at ih ⊢
    unfold set
    by_cases hn : n = name
    · subst hn
      rw [if_pos rfl, List.lookup_cons, List.lookup_cons]
      split
      · rename_i h
        rw [if_pos (beq_iff_eq.mp h)]
      · rename_i h
        rw [if_neg (ne_of_beq_false h)]
    · rw [if_neg hn, List.lookup_cons, List.lookup_cons, ih]
      split
      · rename_i h
        rw [if_neg (fun he => hn ((beq_iff_eq.mp h).symm.trans he))]
      · rfl

theorem get?_of_mem_names {f : Frame} {name : String} (h : name ∈ f.names) :
    ∃ v, f.get? name = some v := by
  refine Option.ne_none_iff_exists'.mp fun hnone => ?_
  obtain ⟨b, hb, rfl⟩ := List.mem_map.mp h
  have hne := List.lookup_eq_none_iff.mp hnone b hb
  rw [bne_self_eq_false] at hne
  cases hne

/-- Every value that a name is bound to has the property. -/
def All (made : Value → Prop) (f : Frame) : Prop := ∀ name v, f.get? name = some v → made v

theorem all_nil {made : Value → Prop} : All made [] := fun _ _ h => nomatch h

theorem all_single {made : Value → Prop} {name : String} {v : Value} (hv : made v) :
    All made [(name, v)] := by
  intro other w hw
  have hset : (set [] name v).get? other = some w := hw
  rw [get?_set] at hset
  split at hset
  · cases hset
    exact hv
  · cases hset

/-! ## Writes to one frame -/

/-- A write to a local frame, which holds the name. -/
inductive LocalWrite (may : String → Value → Prop) : Frame → Frame → Prop
  | mk {f : Frame} {name : String} {v : Value} (holds : f.holds name = true)
      (allowed : may name v) : LocalWrite may f (f.set name v)

/-- A write to the global frame, which may bind a new name. -/
inductive GlobalWrite (may : String → Value → Prop) : Frame → Frame → Prop
  | mk {f : Frame} {name : String} {v : Value} (allowed : may name v) :
      GlobalWrite may f (f.set name v)

variable {may : String → Value → Prop} {f g : Frame}

theorem LocalWrite.global (h : LocalWrite may f g) : GlobalWrite may f g := by
  obtain ⟨-, allowed⟩ := h
  exact .mk allowed

theorem GlobalWrite.get?_eq {z : String} (hz : ∀ v, ¬ may z v) (h : GlobalWrite may f g) :
    g.get? z = f.get? z := by
  obtain ⟨allowed⟩ := h
  rw [get?_set, if_neg]
  rintro rfl
  exact hz _ allowed

theorem GlobalWrite.all {made : Value → Prop} (hmay : ∀ name v, may name v → made v)
    (h : GlobalWrite may f g) (hf : f.All made) : g.All made := by
  obtain ⟨allowed⟩ := h
  intro other w hw
  rw [get?_set] at hw
  split at hw
  · cases hw
    exact hmay _ _ allowed
  · exact hf other w hw

theorem GlobalWrite.names_subset (h : GlobalWrite may f g) : f.names ⊆ g.names := by
  obtain ⟨-⟩ := h
  exact (names_prefix_set f _ _).subset

theorem LocalWrite.names_eq (h : LocalWrite may f g) : g.names = f.names := by
  obtain ⟨holds, -⟩ := h
  exact names_set_of_mem (mem_names_of_holds holds)

/-- A write goes past a name that is bound to null. -/
theorem LocalWrite.null {name : String} (h : LocalWrite may f g)
    (hnull : f.get? name = some .null) : g.get? name = some .null := by
  obtain ⟨holds, -⟩ := h
  rw [get?_set, if_neg, hnull]
  rintro rfl
  unfold Frame.holds at holds
  rw [hnull] at holds
  cases holds

/-! ## Any number of writes -/

def LocalWrites (may : String → Value → Prop) : Frame → Frame → Prop :=
  Relation.ReflTransGen (LocalWrite may)

def GlobalWrites (may : String → Value → Prop) : Frame → Frame → Prop :=
  Relation.ReflTransGen (GlobalWrite may)

theorem LocalWrites.global (h : LocalWrites may f g) : GlobalWrites may f g :=
  Relation.ReflTransGen.mono (fun _ _ => LocalWrite.global) _ _ h

theorem GlobalWrites.get?_eq {z : String} (hz : ∀ v, ¬ may z v) (h : GlobalWrites may f g) :
    g.get? z = f.get? z := by
  induction h with
  | refl => rfl
  | tail _ hw ih => exact (hw.get?_eq hz).trans ih

theorem GlobalWrites.all {made : Value → Prop} (hmay : ∀ name v, may name v → made v)
    (h : GlobalWrites may f g) (hf : f.All made) : g.All made := by
  induction h with
  | refl => exact hf
  | tail _ hw ih => exact hw.all hmay ih

theorem GlobalWrites.names_subset (h : GlobalWrites may f g) : f.names ⊆ g.names := by
  induction h with
  | refl => exact fun _ hn => hn
  | tail _ hw ih => exact List.Subset.trans ih hw.names_subset

theorem LocalWrites.names_eq (h : LocalWrites may f g) : g.names = f.names := by
  induction h with
  | refl => rfl
  | tail _ hw ih => exact hw.names_eq.trans ih

theorem LocalWrites.null {name : String} (h : LocalWrites may f g)
    (hnull : f.get? name = some .null) : g.get? name = some .null := by
  induction h with
  | refl => exact hnull
  | tail _ hw ih => exact hw.null ih

end Frame

/-! ## All frames -/

namespace Scopes

/-- Every value that a name is bound to in some frame has the property. -/
structure All (made : Value → Prop) (s : Scopes) : Prop where
  locals : ∀ f ∈ s.locals, f.All made
  global : s.global.All made

variable {made : Value → Prop} {may : String → Value → Prop} {s : Scopes}

theorem All.resolve (h : s.All made) (hnull : made .null) (name : String) :
    made (s.resolve name) := by
  unfold Scopes.resolve
  split
  · rename_i v hv
    obtain ⟨f, hf, hfv⟩ := List.exists_of_findSome?_eq_some hv
    exact h.locals f hf name v hfv
  · cases hg : s.global.get? name with
    | none => exact hnull
    | some v => exact h.global name v hg

theorem localWrites_write? {name : String} {v : Value} (allowed : may name v)
    {locals locals' : List Frame} (h : write? name v locals = some locals') :
    List.Forall₂ (Frame.LocalWrites may) locals locals' := by
  induction locals generalizing locals' with
  | nil => cases h
  | cons f locals ih =>
    unfold write? at h
    split at h
    · rename_i hf
      cases h
      exact .cons (.single (.mk hf allowed)) (List.forall₂_same.mpr fun _ _ => .refl)
    · obtain ⟨rest, hrest, rfl⟩ := Option.map_eq_some_iff.mp h
      exact .cons .refl (ih hrest)

theorem localWrites_assign (s : Scopes) {name : String} {v : Value} (allowed : may name v) :
    List.Forall₂ (Frame.LocalWrites may) s.locals (s.assign name v).locals := by
  unfold assign
  split
  · exact localWrites_write? allowed ‹_›
  · exact List.forall₂_same.mpr fun _ _ => .refl

theorem globalWrites_assign (s : Scopes) {name : String} {v : Value} (allowed : may name v) :
    Frame.GlobalWrites may s.global (s.assign name v).global := by
  unfold assign
  split
  · exact .refl
  · exact .single (.mk allowed)

theorem all_of_localWrites (hmay : ∀ name v, may name v → made v) {locals locals' : List Frame}
    (h : List.Forall₂ (Frame.LocalWrites may) locals locals') (hl : ∀ f ∈ locals, f.All made) :
    ∀ f ∈ locals', f.All made := by
  induction h with
  | nil => exact hl
  | cons hf _ ih =>
    obtain ⟨hfirst, hrest⟩ := List.forall_mem_cons.mp hl
    exact List.forall_mem_cons.mpr ⟨hf.global.all hmay hfirst, ih hrest⟩

theorem All.assign (h : s.All made) (hmay : ∀ name v, may name v → made v) {name : String}
    {v : Value} (allowed : may name v) : (s.assign name v).All made :=
  ⟨all_of_localWrites hmay (s.localWrites_assign allowed) h.locals,
    (s.globalWrites_assign allowed).all hmay h.global⟩

end Scopes

/-! ## The frames that were there first -/

/-- The local frames that were there first have only been written to. They are found below one
frame for each bracket that waits to leave, and where a call has taken them away. -/
def Written (may : String → Value → Prop) (first : List Frame) : List Guard → List Frame → Prop
  | [], locals => List.Forall₂ (Frame.LocalWrites may) first locals
  | .leave _ :: g, locals => Written may first g locals.tail
  | .attach frames :: g, locals => locals = [] ∧ Written may first g frames
  | _ :: g, locals => Written may first g locals

theorem Written.write {may : String → Value → Prop} {first locals locals' : List Frame}
    {g : List Guard} (hw : List.Forall₂ (Frame.LocalWrites may) locals locals')
    (h : Written may first g locals) : Written may first g locals' := by
  induction g generalizing locals locals' with
  | nil =>
    unfold Written at h ⊢
    induction h generalizing locals' with
    | nil => exact hw
    | cons hf _ ih =>
      cases hw with
      | cons hf' hw => exact .cons (hf.trans hf') (ih hw)
  | cons w g ih =>
    cases w with
    | leave seed =>
      refine ih ?_ h
      cases hw with
      | nil => exact .nil
      | cons _ hw => exact hw
    | attach frames =>
      obtain ⟨rfl, hframes⟩ := h
      exact ⟨List.forall₂_nil_left_iff.mp hw, hframes⟩
    | loop name around => exact ih hw h
    | program => exact ih hw h

end Bracket
