import TreeCompiler.Proofs.PeeledTrees
import TreeCompiler.Proofs.Scopes
import TreeCompiler.Proofs.ValidationInvariants

/-!
# What validating an expression leaves alone

Validating an expression changes the nodes under it and the place it has in the node above it. So
the parts of an expression are validated one after another, and each is found as it was at first.
-/

namespace TreeCompiler

open Step Validation

namespace Tree

/-- A replaced child changes three nodes, and links none to a node that is not one of them. -/
theorem links_replaceChild (tree : Tree) (par old new x : NodeId) :
    (∀ c ∈ (tree.replaceChild par old new).2.children x, c ∈ tree.children x ∨ c = new) ∧
    (∀ up, (tree.replaceChild par old new).2.parent? x = some up →
      tree.parent? x = some up ∨ up = par) ∧ (x ≠ par → x ≠ old → x ≠ new →
      (tree.replaceChild par old new).2.node? x = tree.node? x) := by
  unfold replaceChild
  split
  · exact ⟨fun _ => .inl, fun _ => .inl, fun _ _ _ => rfl⟩
  · split
    · refine ⟨fun c mem => ?_, fun up lk => ?_, fun notParent notOld notNew => ?_⟩
      · simp only [children, form?_setParent] at mem ⊢
        simp only [form?, node?_modify] at mem ⊢
        split at mem
        · cases hf : tree.node? x with
          | none => simp [hf] at mem
          | some node =>
            simp only [hf, Option.map_some, Option.getD_some] at mem ⊢
            rw [Form.children_mapChildren] at mem
            obtain ⟨fst, hi, rfl⟩ := List.mem_map.mp mem
            split
            · exact .inr rfl
            · exact .inl hi
        · exact .inl mem
      · simp only [parent?, setParent, node?_modify] at lk ⊢
        cases hf : tree.node? x with
        | none => simp [hf] at lk
        | some node =>
          simp only [hf] at lk
          split at lk <;> split at lk <;> split at lk <;> simp_all
      · simp [setParent, node?_modify, notParent, notOld, notNew]
    · exact ⟨fun _ => .inl, fun _ => .inl, fun _ _ _ => rfl⟩

end Tree

/-- The nodes at and under a node stand as they did at first. -/
def Work.Ripe (w : Work) (s : Tree) (id : NodeId) : Prop :=
  ∀ x, s.Below id x → w.tree.node? x = s.node? x

/-- Work that was done at and under a node, and at its place in the node above. -/
structure Work.Spares (b : Work) (s : Tree) (id : NodeId) (w : Work) : Prop where
  pool : w.pool.Extends b.pool
  size : w.tree.size = b.tree.size
  outside : ∀ x, ¬s.Below id x → s.parent? id ≠ some x → w.tree.node? x = b.tree.node? x
  inward : ∀ x c, s.Below id x → c ∈ w.tree.children x → s.Below id c
  upward : ∀ x up, s.Below id x → w.tree.parent? x = some up → s.Below id up ∨ s.parent? id = some up

namespace Work

variable {b w : Work} {s : Tree} {r id c sibling : NodeId}

namespace Ripe

variable (ripe : w.Ripe s id)

include ripe

theorem form? {x : NodeId} (hb : s.Below id x) : w.tree.form? x = s.form? x := by
  simp only [Tree.form?, ripe x hb]

theorem facts {x : NodeId} (hb : s.Below id x) : w.tree.facts x = s.facts x := by
  simp only [Tree.facts, ripe x hb]

theorem spares (lk : s.IsLinked r) (hb : s.Below r id) : w.Spares s id w where
  pool := .refl _
  size := rfl
  outside _ _ _ := rfl
  inward x c under mem := by
    simp only [Tree.children, ripe.form? under] at mem
    exact under.child mem
  upward x up under linkedTo := by
    rw [Tree.parent?, ripe x under] at linkedTo
    cases under with
    | root => exact .inr linkedTo
    | @child mid _ under mem =>
      have link := lk.linked mid x (hb.trans under) mem
      obtain rfl : mid = up := Option.some.inj (link.symm.trans linkedTo)
      exact .inl under

/-- The visit of a node begins. -/
theorem begun (lk : s.IsLinked r) (hb : s.Below r id) (mem : c ∈ s.children id) (stage : Stage) :
    (w.withTree (w.tree.setStage id stage)).Ripe s c := by
  intro x under
  have apart : x ≠ id := by
    rintro rfl
    exact lk.not_below_child hb mem under
  refine Eq.trans ?_ (ripe x ((Tree.Below.root.child mem).trans under))
  simp [Work.withTree, Tree.setStage, Tree.modifyFacts, Tree.node?_modify, apart]

end Ripe

theorem Spares.node? (lk : s.IsLinked r) (hb : s.Below r id)
    (mem : c ∈ s.children id) (also : sibling ∈ s.children id)
    (ne : sibling ≠ c) (spares : b.Spares s c w) {x : NodeId}
    (under : s.Below sibling x) : w.tree.node? x = b.tree.node? x := by
  refine spares.outside x (lk.disjoint_siblings hb also mem ne.symm under) ?_
  rw [lk.linked id c hb mem]
  rintro ⟨⟩
  exact lk.not_below_child hb also under

theorem Ripe.next (lk : s.IsLinked r) (hb : s.Below r id)
    (mem : c ∈ s.children id) (also : sibling ∈ s.children id)
    (ne : sibling ≠ c) (ripe : b.Ripe s sibling) (spares : b.Spares s c w) : w.Ripe s sibling :=
  fun x under => (spares.node? lk hb mem also ne under).trans (ripe x under)

theorem Spares.noted (spares : b.Spares s id w) {x : NodeId} (under : s.Below id x)
    (f : Facts → Facts) : b.Spares s id (w.withTree (w.tree.modifyFacts x f)) where
  pool := spares.pool
  size := (w.tree.size_modifyFacts x f).trans spares.size
  outside far out notAbove := by
    have apart : far ≠ x := by
      rintro rfl
      exact out under
    refine Eq.trans ?_ (spares.outside far out notAbove)
    simp [Work.withTree, Tree.modifyFacts, Tree.node?_modify, apart]
  inward far c hb mem :=
    spares.inward far c hb (by simpa [Work.withTree] using mem)
  upward far up hb linkedTo :=
    spares.upward far up hb (by simpa [Work.withTree] using linkedTo)

end Work

/-- Validation from a node downward. -/
def Validation.Guide.within (s : Tree) (id : NodeId) : Guide where
  visits := s.Below id
  follows _ := False
  passes _ := True
  stands old new := s.Below id old → s.Below id new
  holds _ expr := ∀ c ∈ expr.children, s.Below id c

theorem validationInvariant_spares (s : Tree) (id : NodeId) (b : Work) :
    ValidationInvariant (.within s id) (b.Spares s id) where
  child spares hb mem := spares.inward _ _ hb mem
  followed _ hfo _ _ := hfo.elim
  visited hfo := hfo.elim
  held spares hb hf c mem :=
    spares.inward _ c hb (by rwa [Tree.children_of_expr _ hf])
  passed _ := trivial
  passes_form _ _ _ := trivial
  passes_stage _ _ := trivial
  passes_stands _ := trivial
  visits_stands hb hs := hs hb
  stands_self _ _ hb := hb
  stands_paren _ h hs _ := hs (h _ (by simp [Expr.children]))
  stage _ _ _ spares hb _ := spares.noted hb _
  type _ _ _ spares hb := spares.noted hb _
  value _ _ _ _ _ spares hb _ _ := spares.noted hb _
  fit _ _ _ spares hb := spares.noted hb _
  report _ _ spares := { spares with }
  pool _ _ spares hg := { spares with pool := hg.trans spares.pool }
  jump _ _ _ _ _ _ hfo _ _ _ := hfo.elim
  replace w old i new par spares hb h hs linkedTo := by
    have belowNew := hs (h i (by simp [Expr.children]))
    have above := spares.upward old par hb linkedTo
    have links := w.tree.links_replaceChild par old new
    refine ⟨spares.pool, ?_, fun x out notAbove => ?_, fun x c under mem => ?_, fun x up under linkedUp => ?_⟩
    · refine Eq.trans ?_ spares.size
      unfold Work.withTree Tree.replaceChild
      split
      · rfl
      · split <;> simp [Tree.setParent]
    · refine ((links x).2.2 ?_ ?_ ?_).trans (spares.outside x out notAbove)
      · rintro rfl
        exact above.elim out notAbove
      · rintro rfl
        exact out hb
      · rintro rfl
        exact out belowNew
    · rcases (links x).1 c mem with hi | rfl
      · exact spares.inward x c under hi
      · exact belowNew
    · rcases (links x).2.1 up linkedUp with linkedUp | rfl
      · exact spares.upward x up under linkedUp
      · exact above

namespace Validation

variable {s : Tree} {r id : NodeId} {w t : Work} {n : Nat}

/-- An expression is stood for by a node under it, and what lies elsewhere is left alone. -/
theorem spares_validateExprWithin (lk : s.IsLinked r) (hb : s.Below r id)
    (ripe : w.Ripe s id) {req : Option ConstId} {ans : Option NodeId}
    (ran : validateExprWithin n id req w = .ok ans t) :
    w.Spares s id t ∧ ∀ node, ans = some node → s.Below id node := by
  obtain ⟨spares, hs⟩ := ((validationInvariant_spares s id w).checking.guided_validateExprWithin
    n .root req).yields w ans t (ripe.spares lk hb) ran
  exact ⟨spares, fun node hf => hs node hf .root⟩

theorem spares_validateTypeWithin (lk : s.IsLinked r) (hb : s.Below r id)
    (ripe : w.Ripe s id) {ans : Option ConstId}
    (ran : validateTypeWithin n id w = .ok ans t) : w.Spares s id t :=
  (validationInvariant_spares s id w).keeps_validateTypeWithin n .root w ans t (ripe.spares lk hb) ran

end Validation

end TreeCompiler
