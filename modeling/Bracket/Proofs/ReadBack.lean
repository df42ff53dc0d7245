import Bracket.Proofs.Writes

/-!
# Bracket.Proofs.ReadBack

What a name reads as after it was written.

A read and a write search the same frames, innermost first, and may stop at different ones: a null
ends the search of a read, and a write goes past it. `Turns` says what each operation does to a
plain list of frames, and `read_back` when the value that was written is the one that is read.
-/

namespace Bracket

theorem Frame.holds_iff {f : Frame} {name : String} :
    f.holds name = true ↔ ∃ v, f.get? name = some v ∧ v ≠ .null := by
  unfold holds
  cases f.get? name with
  | none => exact ⟨nofun, fun ⟨_, h, _⟩ => nomatch h⟩
  | some v =>
    cases v with
    | null => exact ⟨nofun, fun ⟨_, h, hne⟩ => absurd (Option.some.inj h).symm hne⟩
    | number x => exact ⟨fun _ => ⟨_, rfl, nofun⟩, fun _ => rfl⟩
    | closure param body => exact ⟨fun _ => ⟨_, rfl, nofun⟩, fun _ => rfl⟩

theorem Frame.eq_null_of_not_holds {f : Frame} {name : String} (h : ¬ f.holds name = true) :
    ∀ v, f.get? name = some v → v = .null := by
  intro v hv
  by_contra hne
  exact h (holds_iff.mpr ⟨v, hv, hne⟩)

namespace Scopes

/-! ## A plain list of frames -/

/-- All frames, innermost first, with the global one at the end. -/
def frames (s : Scopes) : List Frame := s.locals ++ [s.global]

inductive Action where
  | push (f : Frame)
  | pop
  | assign (name : String) (v : Value)
  | detach
  | attach (frames : List Frame)

def act (s : Scopes) : Action → Scopes
  | .push f => s.push f
  | .pop => s.pop
  | .assign name v => s.assign name v
  | .detach => s.detach.2
  | .attach frames => s.attach frames

/-- The frame between the two lists is the innermost one that binds the name to something other
than null, or else the last one. -/
structure Target (name : String) (inner : List Frame) (f : Frame) (outer : List Frame) : Prop where
  inner : ∀ g ∈ inner, ∀ v, g.get? name = some v → v = .null
  found : (∃ v, f.get? name = some v ∧ v ≠ .null) ∨ outer = []

/-- What an action does to a list of frames. Nothing is said of the list but what the action needs:
only pushing and attaching are possible if it is empty. -/
inductive Turns : List Frame → Action → List Frame → Prop
  | push {fs : List Frame} {f : Frame} : Turns fs (.push f) (f :: fs)
  | pop {f g : Frame} {fs : List Frame} : Turns (f :: g :: fs) .pop (g :: fs)
  | keep {g : Frame} : Turns [g] .pop [g]
  | assign {inner outer : List Frame} {f : Frame} {name : String} {v : Value}
      (target : Target name inner f outer) :
      Turns (inner ++ f :: outer) (.assign name v) (inner ++ f.set name v :: outer)
  | detach {fs : List Frame} {g : Frame} : Turns (fs ++ [g]) .detach [g]
  | attach {fs frames : List Frame} : Turns fs (.attach frames) (frames ++ fs)

inductive Runs : List Frame → List Action → List Frame → Prop
  | nil {fs : List Frame} : Runs fs [] fs
  | cons {fs gs hs : List Frame} {a : Action} {actions : List Action} (turn : Turns fs a gs)
      (rest : Runs gs actions hs) : Runs fs (a :: actions) hs

theorem Turns.ne_nil {fs gs : List Frame} {a : Action} (h : Turns fs a gs) (hne : fs ≠ []) :
    gs ≠ [] := by
  cases h with
  | push | pop | keep | detach => exact List.cons_ne_nil _ _
  | assign => exact List.append_ne_nil_of_right_ne_nil _ (List.cons_ne_nil _ _)
  | attach => exact List.append_ne_nil_of_right_ne_nil _ hne

theorem Runs.ne_nil {fs gs : List Frame} {actions : List Action} (h : Runs fs actions gs)
    (hne : fs ≠ []) : gs ≠ [] := by
  induction h with
  | nil => exact hne
  | cons turn _ ih => exact ih (turn.ne_nil hne)

theorem target_of_write? {name : String} {v : Value} {fs gs : List Frame}
    (h : write? name v fs = some gs) (rest : List Frame) :
    ∃ inner f outer, Target name inner f outer ∧ fs ++ rest = inner ++ f :: outer ∧
      gs ++ rest = inner ++ f.set name v :: outer := by
  induction fs generalizing gs with
  | nil => cases h
  | cons f fs ih =>
    unfold write? at h
    split at h
    · rename_i holds
      cases h
      exact ⟨[], f, fs ++ rest, ⟨List.forall_mem_nil _, .inl (Frame.holds_iff.mp holds)⟩, rfl, rfl⟩
    · rename_i passed
      obtain ⟨gs, hgs, rfl⟩ := Option.map_eq_some_iff.mp h
      obtain ⟨inner, g, outer, target, hfs, hset⟩ := ih hgs
      have hinner := List.forall_mem_cons.mpr ⟨Frame.eq_null_of_not_holds passed, target.inner⟩
      refine ⟨f :: inner, g, outer, ⟨hinner, target.found⟩, ?_, ?_⟩
      · rw [List.cons_append, hfs, List.cons_append]
      · rw [List.cons_append, hset, List.cons_append]

theorem eq_null_of_write?_none {name : String} {v : Value} {fs : List Frame}
    (h : write? name v fs = none) : ∀ f ∈ fs, ∀ w, f.get? name = some w → w = .null := by
  induction fs with
  | nil => exact List.forall_mem_nil _
  | cons f fs ih =>
    unfold write? at h
    split at h
    · cases h
    · rename_i passed
      have hrest := ih (Option.map_eq_none_iff.mp h)
      exact List.forall_mem_cons.mpr ⟨Frame.eq_null_of_not_holds passed, hrest⟩

/-- One frame is written. -/
theorem frames_assign (s : Scopes) (name : String) (v : Value) :
    ∃ inner f outer, Target name inner f outer ∧ s.frames = inner ++ f :: outer ∧
      (s.assign name v).frames = inner ++ f.set name v :: outer := by
  unfold assign
  split
  · rename_i locals h
    exact target_of_write? h [s.global]
  · rename_i h
    exact ⟨s.locals, s.global, [], ⟨eq_null_of_write?_none h, .inr rfl⟩, rfl, rfl⟩

theorem turns_act (s : Scopes) (a : Action) : Turns s.frames a (s.act a).frames := by
  cases a with
  | push f => exact .push
  | pop =>
    obtain ⟨locals, global⟩ := s
    cases locals with
    | nil => exact .keep
    | cons f locals =>
      cases locals with
      | nil => exact .pop
      | cons g locals => exact .pop
  | assign name v =>
    obtain ⟨inner, f, outer, target, hs, ht⟩ := s.frames_assign name v
    show Turns s.frames _ (s.assign name v).frames
    rw [hs, ht]
    exact .assign target
  | detach => exact .detach
  | attach frames =>
    show Turns s.frames _ (frames ++ s.locals ++ [s.global])
    rw [List.append_assoc]
    exact .attach

theorem runs_act (s : Scopes) (actions : List Action) :
    Runs s.frames actions (actions.foldl act s).frames := by
  induction actions generalizing s with
  | nil => exact .nil
  | cons a actions ih => exact .cons (s.turns_act a) (ih (s.act a))

/-! ## Reading -/

/-- The innermost binding of a name. -/
def find? (fs : List Frame) (name : String) : Option Value := fs.findSome? (·.get? name)

theorem resolve_eq (s : Scopes) (name : String) :
    s.resolve name = (find? s.frames name).getD .null := by
  unfold resolve find? frames
  rw [List.findSome?_append]
  cases s.locals.findSome? (·.get? name) with
  | some v => rfl
  | none =>
    rw [List.findSome?_cons, List.findSome?_nil]
    cases s.global.get? name <;> rfl

/-- The innermost frame that binds the name is not the last one, and binds it to null. -/
def Hidden (fs : List Frame) (name : String) : Prop :=
  ∃ inner f outer, fs = inner ++ f :: outer ∧ outer ≠ [] ∧ (∀ g ∈ inner, g.get? name = none) ∧
    f.get? name = some .null

theorem Hidden.find? {fs : List Frame} {name : String} (h : Hidden fs name) :
    Scopes.find? fs name = some .null := by
  obtain ⟨inner, f, outer, hfs, -, hinner, hf⟩ := h
  exact List.findSome?_eq_some_iff.mpr ⟨inner, f, outer, hfs, hf, hinner⟩

namespace Target

variable {name other : String} {inner outer : List Frame} {f : Frame}

theorem find?_other (hne : other ≠ name) (v : Value) :
    Scopes.find? (inner ++ f.set name v :: outer) other =
      Scopes.find? (inner ++ f :: outer) other := by
  unfold Scopes.find?
  rw [List.findSome?_append, List.findSome?_append, List.findSome?_cons, List.findSome?_cons,
    Frame.get?_set, if_neg hne]

/-- Where no frame inside binds the name, it is not hidden, and the write is read. -/
theorem find?_of_unbound (h : Target name inner f outer) (hinner : ∀ g ∈ inner, g.get? name = none)
    (v : Value) : ¬ Hidden (inner ++ f :: outer) name ∧
      Scopes.find? (inner ++ f.set name v :: outer) name = some v := by
  have hnone : inner.findSome? (·.get? name) = none := List.findSome?_eq_none_iff.mpr hinner
  refine ⟨fun hidden => ?_, ?_⟩
  · obtain ⟨w, hw, hne⟩ | rfl := h.found
    · have hfind := hidden.find?
      unfold Scopes.find? at hfind
      rw [List.findSome?_append, hnone, Option.none_or, List.findSome?_cons, hw] at hfind
      exact hne (Option.some.inj hfind)
    · -- the null stands in a frame inside the last one
      obtain ⟨inner', g, outer', hfs, houter, -, hg⟩ := hidden
      obtain ⟨fs, z, rfl⟩ := (List.eq_nil_or_concat' outer').resolve_left houter
      rw [← List.cons_append, ← List.append_assoc] at hfs
      obtain ⟨rfl, -⟩ := List.append_inj' hfs rfl
      rw [hinner g (List.mem_append_right _ List.mem_cons_self)] at hg
      cases hg
  · unfold Scopes.find?
    rw [List.findSome?_append, hnone, Option.none_or, List.findSome?_cons, Frame.get?_set,
      if_pos rfl]

/-- A null in a frame inside hides the name before the write and after it. -/
theorem find?_of_bound (h : Target name inner f outer) {w : Value}
    (hinner : inner.findSome? (·.get? name) = some w) (v : Value) :
    Hidden (inner ++ f :: outer) name ∧
      Scopes.find? (inner ++ f.set name v :: outer) name = some .null := by
  obtain ⟨fs, g, gs, rfl, hg, hfs⟩ := List.findSome?_eq_some_iff.mp hinner
  obtain rfl : w = .null := h.inner g (List.mem_append_right _ List.mem_cons_self) w hg
  refine ⟨⟨fs, g, gs ++ f :: outer, ?_, ?_, hfs, hg⟩, ?_⟩
  · rw [List.append_assoc, List.cons_append]
  · exact List.append_ne_nil_of_right_ne_nil _ (List.cons_ne_nil _ _)
  · unfold Scopes.find?
    rw [List.findSome?_append, hinner, Option.some_or]

theorem read_written (h : Target name inner f outer) (v : Value) :
    (Hidden (inner ++ f :: outer) name →
      Scopes.find? (inner ++ f.set name v :: outer) name = some .null) ∧
    (¬ Hidden (inner ++ f :: outer) name →
      Scopes.find? (inner ++ f.set name v :: outer) name = some v) := by
  cases hinner : inner.findSome? (·.get? name) with
  | none =>
    obtain ⟨hseen, hfind⟩ := h.find?_of_unbound (List.findSome?_eq_none_iff.mp hinner) v
    exact ⟨fun hidden => absurd hidden hseen, fun _ => hfind⟩
  | some w =>
    obtain ⟨hidden, hfind⟩ := h.find?_of_bound hinner v
    exact ⟨fun _ => hfind, fun hseen => absurd hidden hseen⟩

end Target

/-- After any sequence of actions a name that is written reads as what was written, unless its
innermost binding was a null in a local frame: then it reads as null before and after. Other names
read as before. One frame is written, the innermost that bound the name to something other than null
or else the global one. There always is a frame: the actions can all be done on a plain list that
starts with one. -/
theorem read_back (actions : List Action) (name : String) (v : Value) :
    let s := actions.foldl act empty
    let t := s.assign name v
    (Hidden s.frames name → s.resolve name = .null ∧ t.resolve name = .null) ∧
    (¬ Hidden s.frames name → t.resolve name = v) ∧
    (∀ other, other ≠ name → t.resolve other = s.resolve other) ∧
    (∃ inner f outer, Target name inner f outer ∧ s.frames = inner ++ f :: outer ∧
      t.frames = inner ++ f.set name v :: outer) ∧
    Runs [[]] actions s.frames ∧ s.frames ≠ [] := by
  intro s t
  have hruns : Runs [[]] actions s.frames := runs_act empty actions
  obtain ⟨inner, f, outer, target, hs, ht⟩ := s.frames_assign name v
  have ht : t.frames = inner ++ f.set name v :: outer := ht
  obtain ⟨hhidden, hseen⟩ := target.read_written v
  rw [← hs, ← ht] at hhidden hseen
  refine ⟨fun h => ⟨?_, ?_⟩, fun h => ?_, fun other hne => ?_, ?_, hruns, ?_⟩
  · rw [s.resolve_eq, h.find?]
    rfl
  · rw [t.resolve_eq, hhidden h]
    rfl
  · rw [t.resolve_eq, hseen h]
    rfl
  · rw [t.resolve_eq, s.resolve_eq, hs, ht, Target.find?_other hne]
  · exact ⟨inner, f, outer, target, hs, ht⟩
  · exact hruns.ne_nil (List.cons_ne_nil _ _)

/-- A parameter that holds null takes no write. The write goes to the global frame and is read once
the frames of the call are gone. -/
theorem read_back_past_null :
    let v : Value := .closure none [.ident "n"]
    let call : List Action := [.assign "n" (.closure none []), .push [("m", .null)], .detach,
      .push [("n", .null)], .push []]
    let back : List Action := call ++ [.assign "n" v, .pop, .pop]
    let s := call.foldl act empty
    let t := back.foldl act empty
    Hidden s.frames "n" ∧ (s.assign "n" v).resolve "n" = .null ∧
    ¬ Hidden t.frames "n" ∧ t.resolve "n" = v ∧ (t.assign "n" .null).resolve "n" = .null := by
  intro v call back s t
  have hidden : Hidden s.frames "n" :=
    ⟨[[]], [("n", .null)], [[("n", .closure none [])]], rfl, List.cons_ne_nil _ _,
      List.forall_mem_singleton.mpr rfl, rfl⟩
  have hseen : ¬ Hidden t.frames "n" := by
    intro h
    have hfind : some (Value.closure none [.ident "n"]) = some .null := h.find?
    cases hfind
  obtain ⟨hnull, -, -⟩ := read_back call "n" v
  obtain ⟨-, hread, -⟩ := read_back back "n" .null
  exact ⟨hidden, (hnull hidden).2, hseen, rfl, hread hseen⟩

end Scopes

end Bracket
