import Bracket.Proofs.CodeCorrect
import Bracket.Proofs.Lexemes

/-!
# Bracket.Proofs.Bindings

Which bindings an evaluation can change, whatever it does and however it ends.

* `only_targets_change`: those of names that stand left of an `=`, in the tree or in a closure that
  can be reached from it or from the frames. No other closures come out of an evaluation.
* `new_names_are_global`: a local frame gets no new names, and what is null in it stays null.
-/

namespace Bracket

def Frame.Binds (f : Frame) (v : Value) : Prop := ∃ name, f.get? name = some v

def Scopes.Binds (s : Scopes) (v : Value) : Prop := s.global.Binds v ∨ ∃ f ∈ s.locals, f.Binds v

theorem Scopes.all_iff {made : Value → Prop} {s : Scopes} :
    s.All made ↔ ∀ v, s.Binds v → made v := by
  constructor
  · rintro ⟨hlocals, hglobal⟩ v (⟨name, h⟩ | ⟨f, hf, name, h⟩)
    · exact hglobal name v h
    · exact hlocals f hf name v h
  · intro h
    exact ⟨fun f hf name v hv => h v (.inr ⟨f, hf, name, hv⟩),
      fun name v hv => h v (.inl ⟨name, hv⟩)⟩

/-! ## Reachable code -/

namespace Entry

/-- The lists of terms of the tree and of the closures that can be reached. -/
inductive Lists (entry : Entry) (c : Context) : Group → Prop where
  | tree : Lists entry c entry.code
  | bound {param : Option String} {body : Group} (h : c.scopes.Binds (.closure param body)) :
      Lists entry c body
  | seeded {param : Option String} {body : Group} (h : entry.seed.Binds (.closure param body)) :
      Lists entry c body
  | part {g h : Group} {t : Term} (hg : Lists entry c g) (ht : t ∈ g) (hh : h ∈ t.parts) :
      Lists entry c h

/-- The closures that can be reached from the tree and from the frames. -/
inductive Closures (entry : Entry) (c : Context) : Option String → Group → Prop where
  | bound {param : Option String} {body : Group} (h : c.scopes.Binds (.closure param body)) :
      Closures entry c param body
  | seeded {param : Option String} {body : Group} (h : entry.seed.Binds (.closure param body)) :
      Closures entry c param body
  | written {g : Group} {param : Option String} {body : Group} (hg : Lists entry c g)
      (h : .closure param body ∈ g) : Closures entry c param body

def reach (entry : Entry) (c : Context) : Code where
  lists := entry.Lists c
  closures := entry.Closures c
  part := .part
  written := .written
  body h := by
    cases h with
    | bound h => exact .bound h
    | seeded h => exact .seeded h
    | written hg h => exact .part hg h List.mem_cons_self

variable {entry : Entry} {c : Context}

theorem reach_seed : entry.seed.All (entry.reach c).Made := by
  intro name v hv
  cases v with
  | closure param body => exact Closures.seeded ⟨name, hv⟩
  | _ => trivial

theorem reach_scopes : c.scopes.All (entry.reach c).Made := by
  refine Scopes.all_iff.mpr fun v hv => ?_
  cases v with
  | closure param body => exact Closures.bound hv
  | _ => trivial

end Entry

/-! ## Names that are no targets -/

/-- An evaluation leaves every name as it was, in the global frame and in each local one, that
stands nowhere directly left of an `=`. The closures that are bound or returned afterwards are among
those that could be reached before. -/
theorem only_targets_change {m : Machine} {entry : Entry} {c d : Context}
    (hd : (m.eval entry c).state? = some d) :
    (∀ z, (∀ g, entry.Lists c g → ¬ [.ident z, .op .assign] <:+: g) →
      d.scopes.global.get? z = c.scopes.global.get? z ∧
      List.Forall₂ (fun f f' => f'.get? z = f.get? z) c.scopes.locals d.scopes.locals) ∧
    (∀ param body, d.scopes.Binds (.closure param body) → entry.Closures c param body) ∧
    ∀ param body, m.eval entry c = .done (.closure param body) d →
      entry.Closures c param body := by
  have hkeeps : (entry.reach c).Keeps c.scopes [] d :=
    Code.eval_keeps .tree Entry.reach_seed Entry.reach_scopes hd
  refine ⟨fun z hz => ?_, fun param body h => ?_, fun param body h => ?_⟩
  · have hmay (v : Value) : ¬ (entry.reach c).May z v := by
      rintro ⟨⟨g, hg, htarget⟩, -⟩
      exact hz g hg htarget
    have hlocals : List.Forall₂ (Frame.LocalWrites (entry.reach c).May) c.scopes.locals
      d.scopes.locals := hkeeps.locals
    exact ⟨hkeeps.global.get?_eq hmay, hlocals.imp fun _ _ hw => hw.global.get?_eq hmay⟩
  · exact Scopes.all_iff.mp hkeeps.made _ h
  · exact Code.eval_made (K := entry.reach c) .tree Entry.reach_seed Entry.reach_scopes h

/-- The body of a closure found in a frame is reachable, and so is the closure written in it. A call
binds that one and leaves `z` alone. -/
theorem only_targets_change_in_call :
    let m : Machine := { patience := 0 }
    let body : Group := [.ident "y", .op .assign, .closure none []]
    let c : Context := ⟨⟨[[("z", .null)]], [("f", .closure none body)]⟩, [], 1, .empty⟩
    let d : Context :=
      ⟨⟨[[("z", .null)]], [("f", .closure none body), ("y", .closure none [])]⟩, [], 1, .empty⟩
    let entry : Entry := .program [.call "f" none]
    (m.eval entry c).state? = some d ∧
    (∀ g, entry.Lists c g → ¬ [.ident "z", .op .assign] <:+: g) ∧
    d.scopes.global.get? "z" = c.scopes.global.get? "z" ∧ entry.Closures c none [] := by
  intro m body c d entry
  have hd : (m.eval entry c).state? = some d := rfl
  have hvalues : ∀ v, c.scopes.Binds v → v = .null ∨ v = .closure none body :=
    Scopes.all_iff.mp ⟨List.forall_mem_singleton.mpr (Frame.all_single (.inl rfl)),
      Frame.all_single (.inr rfl)⟩
  have hlists : ∀ g, entry.Lists c g → g = [.call "f" none] ∨ g = body ∨ g = [] := by
    intro g hg
    induction hg with
    | tree => exact .inl rfl
    | bound h =>
      rcases hvalues _ h with h | h
      · cases h
      · cases h
        exact .inr (.inl rfl)
    | seeded h =>
      obtain ⟨name, h⟩ := h
      cases h
    | part _ ht hh ih =>
      rcases ih with rfl | rfl | rfl
      · cases List.mem_singleton.mp ht
        cases hh
      · simp only [body, List.mem_cons, List.not_mem_nil, or_false] at ht
        rcases ht with rfl | rfl | rfl
        · cases hh
        · cases hh
        · exact .inr (.inr (List.mem_singleton.mp hh))
      · cases ht
  have hz : ∀ g, entry.Lists c g → ¬ [.ident "z", .op .assign] <:+: g := by
    intro g hg htarget
    have hmem : Term.ident "z" ∈ g := htarget.subset List.mem_cons_self
    rcases hlists g hg with rfl | rfl | rfl <;> simp [body] at hmem
  obtain ⟨hnames, hclosures, -⟩ := only_targets_change hd
  exact ⟨hd, hz, (hnames "z" hz).1, hclosures none [] (.inl ⟨"y", rfl⟩)⟩

/-! ## New names -/

/-- Nothing new is bound in the frame, and null is not written over. -/
structure Frame.Kept (f f' : Frame) : Prop where
  names : f'.names = f.names
  null : ∀ name, f.get? name = some .null → f'.get? name = some .null

theorem eval_kept {m : Machine} {entry : Entry} {c d : Context}
    (hd : (m.eval entry c).state? = some d) :
    List.Forall₂ Frame.Kept c.scopes.locals d.scopes.locals ∧
      c.scopes.global.names ⊆ d.scopes.global.names := by
  have hmade (v : Value) : Code.any.Made v := by cases v <;> trivial
  have hkeeps : Code.any.Keeps c.scopes [] d :=
    Code.eval_keeps trivial (fun _ _ _ => hmade _) (Scopes.all_iff.mpr fun _ _ => hmade _) hd
  have hlocals : List.Forall₂ (Frame.LocalWrites Code.any.May) c.scopes.locals
    d.scopes.locals := hkeeps.locals
  exact ⟨hlocals.imp fun _ _ hw => ⟨hw.names_eq, fun _ => hw.null⟩, hkeeps.global.names_subset⟩

/-- One text is run, with or without success. -/
def Machine.Ran (m : Machine) (c d : Context) : Prop :=
  ∃ source, (m.run source c).state? = some d

theorem names_subset_of_session {m : Machine} {c d : Context}
    (h : Relation.ReflTransGen m.Ran c d) : c.scopes.global.names ⊆ d.scopes.global.names := by
  induction h with
  | refl => exact fun _ hname => hname
  | tail _ hran ih =>
    obtain ⟨source, hsource⟩ := hran
    rcases Machine.run_state hsource with rfl | ⟨g, hg⟩
    · exact ih
    · exact List.Subset.trans ih (eval_kept hg).2

/-- An evaluation binds no new name in a local frame and changes no null in it, and it takes no name
from the global frame. So a global name stays bound through all texts that are run. -/
theorem new_names_are_global {m : Machine} {c d : Context} :
    (∀ entry : Entry, (m.eval entry c).state? = some d →
      List.Forall₂ Frame.Kept c.scopes.locals d.scopes.locals ∧
      c.scopes.global.names ⊆ d.scopes.global.names) ∧
    (Relation.ReflTransGen m.Ran c d →
      ∀ name v, c.scopes.global.get? name = some v → ∃ w, d.scopes.global.get? name = some w) := by
  refine ⟨fun entry hd => eval_kept hd, fun h name v hv => ?_⟩
  exact Frame.get?_of_mem_names (names_subset_of_session h (Frame.mem_names_of_get? hv))

/-- The name is bound to null in the frame that the text is run in. -/
theorem new_names_are_global_over_null :
    let m : Machine := { patience := 0 }
    let c : Context := ⟨⟨[[("z", .null)]], []⟩, [], 1, .empty⟩
    let d : Context := ⟨⟨[[("z", .null)]], [("z", .closure none [])]⟩, [], 1, .empty⟩
    let g : Group := [.ident "z", .op .assign, .closure none []]
    (m.eval (.program g) c).state? = some d ∧ m.Ran c d ∧
    List.Forall₂ Frame.Kept c.scopes.locals d.scopes.locals ∧
    ∀ e, Relation.ReflTransGen m.Ran d e → ∃ w, e.scopes.global.get? "z" = some w := by
  intro m c d g
  have hd : (m.eval (.program g) c).state? = some d := rfl
  have hparse : Reader.parse "z = ||()" = .ok g := by
    rw [Reader.parse, Reader.Parser.run_eq_bind rfl]
    refine (Reader.Parser.run_eq_bind rfl).trans ?_
    refine (Reader.Parser.run_eq_bind rfl).trans ?_
    exact (Reader.Parser.run_eq_bind rfl).trans (Reader.Parser.run_of_isAtEnd rfl)
  have hran : (m.run "z = ||()" c).state? = some d := by
    rw [Machine.run, hparse]
    rfl
  refine ⟨hd, ⟨_, hran⟩, (new_names_are_global.1 _ hd).1, fun e he => ?_⟩
  exact new_names_are_global.2 he "z" (.closure none []) rfl

end Bracket
