import TreeCompiler.Proofs.FreshTrees
import TreeCompiler.Scope

/-!
# Scopes in linked trees

Which nodes lie under a node, which declaration a name refers to at a child of a statement, and
where a type definition stands. What is known about nodes has no part in any of this, so trees of
one shape agree on it.
-/

namespace TreeCompiler.Tree

variable {tree : Tree} {r id c x : NodeId} {name : String}

/-! ### Nodes under a node -/

theorem Below.trans (above : tree.Below r id) (hb : tree.Below id x) : tree.Below r x := by
  induction hb with
  | root => exact above
  | child _ mem ih => exact ih.child mem

/-- What lies under a node is the node itself or lies under one of its children. -/
theorem Below.eq_or_under_child (hb : tree.Below id x) :
    x = id ∨ ∃ c ∈ tree.children id, tree.Below c x := by
  induction hb with
  | root => exact .inl rfl
  | @child mid last _ mem ih =>
    right
    rcases ih with rfl | ⟨c, here, under⟩
    · exact ⟨last, mem, .root⟩
    · exact ⟨c, here, under.child mem⟩

namespace IsLinked

variable (lk : tree.IsLinked r)

include lk

theorem index_le (above : tree.Below r id) (hb : tree.Below id x) : x.index ≤ id.index := by
  induction hb with
  | root => exact Nat.le_refl _
  | @child mid last hb mem ih =>
    have lower := lk.upward mid last (above.trans hb) mem
    omega

theorem not_below_sibling {sibling : NodeId} (hb : tree.Below r id)
    (mem : c ∈ tree.children id) (also : sibling ∈ tree.children id)
    (ne : sibling ≠ c) : ¬tree.Below c sibling := by
  intro under
  cases under with
  | root => exact ne rfl
  | @child mid _ under last =>
    have eq : mid = id := by
      have up := lk.linked mid sibling ((hb.child mem).trans under) last
      rw [lk.linked id sibling hb also] at up
      exact (Option.some.inj up).symm
    subst eq
    have lower := lk.index_le (hb.child mem) under
    have upper := lk.upward mid c hb mem
    omega

theorem not_below_child (hb : tree.Below r id) (mem : c ∈ tree.children id) : ¬tree.Below c id := by
  intro under
  have lower := lk.index_le (hb.child mem) under
  have upper := lk.upward id c hb mem
  omega

theorem disjoint_siblings {sibling : NodeId} (hb : tree.Below r id) (mem : c ∈ tree.children id)
    (also : sibling ∈ tree.children id) (ne : sibling ≠ c) (under : tree.Below c x) :
    ¬tree.Below sibling x := by
  induction under with
  | root => exact lk.not_below_sibling hb also mem ne.symm
  | @child mid last under up ih =>
    intro far
    cases far with
    | root => exact lk.not_below_sibling hb mem also ne (under.child up)
    | @child upper _ far again =>
      have fst := lk.linked mid last ((hb.child mem).trans under) up
      have snd := lk.linked upper last ((hb.child also).trans far) again
      rw [fst] at snd
      cases snd
      exact ih far

theorem below_of_mem_ancestors (hb : tree.Below r id) {ancestor : NodeId}
    (mem : ancestor ∈ tree.ancestors id) : tree.Below r ancestor ∧ tree.Below ancestor id := by
  induction hb with
  | root =>
    rw [lk.ancestors_root] at mem
    simp at mem
  | @child mid last hb up ih =>
    rw [lk.ancestors_child hb up, List.mem_cons] at mem
    rcases mem with rfl | mem
    · exact ⟨hb, Below.root.child up⟩
    · exact ⟨(ih mem).1, (ih mem).2.child up⟩

theorem notMem_ancestors (hb : tree.Below r id) : id ∉ tree.ancestors id := by
  intro around
  cases hb with
  | root =>
    rw [lk.ancestors_root] at around
    simp at around
  | @child up _ hb mem =>
    refine lk.not_below_child hb mem ?_
    rw [lk.ancestors_child hb mem, List.mem_cons] at around
    rcases around with rfl | above
    · exact .root
    · exact (lk.below_of_mem_ancestors hb above).2

/-- The nodes from a node down are those under it. -/
theorem mem_preorderWithin_iff (above : tree.Below r id) {n : Nat} (deep : id.index < n) :
    x ∈ tree.preorderWithin n id ↔ tree.Below id x := by
  induction n generalizing id with
  | zero => omega
  | succ n ih =>
    rw [preorderWithin, List.mem_cons, List.mem_flatMap]
    constructor
    · rintro (rfl | ⟨c, mem, hi⟩)
      · exact .root
      · have lower := lk.upward id c above mem
        exact (Below.root.child mem).trans ((ih (above.child mem) (by omega)).mp hi)
    · intro hb
      rcases hb.eq_or_under_child with rfl | ⟨c, mem, under⟩
      · exact .inl rfl
      · have lower := lk.upward id c above mem
        exact .inr ⟨c, mem, (ih (above.child mem) (by omega)).mpr under⟩

theorem index_lt_size (hb : tree.Below r id) (hp : tree.Has r) : id.index < tree.size :=
  Nat.lt_of_le_of_lt (lk.index_le .root hb) (tree.has_iff_lt.mp hp)

theorem mem_preorder_iff (hb : tree.Below r id) (hp : tree.Has r) :
    x ∈ tree.preorder id ↔ tree.Below id x :=
  lk.mem_preorderWithin_iff hb (Nat.lt_succ_of_lt (lk.index_lt_size hb hp))

end IsLinked

/-! ### Declarations -/

theorem declaredBefore_eq_some {ids : List NodeId} {decl : NodeId}
    (hf : tree.declaredBefore name c ids = some decl) :
    decl ∈ ids.takeWhile (· ≠ c) ∧ tree.declaresLocal name decl = true := by
  have mem := List.mem_of_find?_eq_some hf
  exact ⟨List.mem_reverse.mp mem, List.find?_some hf⟩

/-- The declaration that a parent makes visible to its child. -/
def declaredAbove (tree : Tree) (name : String) (c : NodeId) : Stmt → Option NodeId → Option NodeId
  | .method _ ps _ _, _ => (ps.reverse.find? (·.name == name)).map Param.type
  | stmt, outer => (tree.declaredIn name c stmt).or outer

/-- What a name refers to at a child: what its parent declares for it, and otherwise what it refers
to at the parent. -/
theorem IsLinked.findLocal_child (lk : tree.IsLinked r) (hb : tree.Below r id)
    (mem : c ∈ tree.children id) :
      tree.findLocal c name = match tree.stmt? id with
      | some stmt => tree.declaredAbove name c stmt (tree.findLocal id name)
      | none => tree.findLocal id name := by
  unfold findLocal
  rw [lk.ancestors_child hb mem, findLocalAlong]
  cases tree.stmt? id with
  | none => rfl
  | some stmt =>
    cases stmt with
    | method name ps rets body => rfl
    | _ => dsimp only [declaredAbove]; split <;> simp_all

theorem IsLinked.findLocal_root (lk : tree.IsLinked r) : tree.findLocal r name = none := by
  unfold findLocal
  rw [lk.ancestors_root, findLocalAlong]

theorem findTypedef_eq_some {typedef : NodeId} (hf : tree.findTypedef id name = some typedef) :
    ∃ block ∈ tree.ancestorsInMethod id, ∃ stmts ty, tree.stmt? block = some (.block stmts) ∧
      typedef ∈ stmts ∧ tree.stmt? typedef = some (.typedef name ty) := by
  obtain ⟨block, mem, hf⟩ := List.exists_of_findSome?_eq_some hf
  unfold typedefIn at hf
  split at hf
  · rename_i stmts isBlock
    have defines := List.find?_some hf
    unfold definesType at defines
    split at defines
    · rename_i defined ty isTypedef
      obtain rfl : defined = name := by simpa using defines
      exact ⟨block, mem, stmts, ty, isBlock, List.mem_of_find?_eq_some hf, isTypedef⟩
    · simp at defines
  · simp at hf

theorem ancestorsInMethod_subset : tree.ancestorsInMethod id ⊆ tree.ancestors id :=
  fun _ mem => (List.takeWhile_subset _) mem

/-! ### Trees of one shape -/

/-- Trees that differ at most in what is known about their nodes. -/
structure SameShape (tree x : Tree) : Prop where
  root : x.root = tree.root
  size : x.size = tree.size
  form : ∀ id, x.form? id = tree.form? id
  parent : ∀ id, x.parent? id = tree.parent? id
  completable : ∀ id, x.completable id = tree.completable id

namespace SameShape

variable {fst snd third : Tree}

theorem refl (tree : Tree) : tree.SameShape tree := ⟨rfl, rfl, fun _ => rfl, fun _ => rfl, fun _ => rfl⟩

theorem trans (he : fst.SameShape snd) (later : snd.SameShape third) : fst.SameShape third where
  root := later.root.trans he.root
  size := later.size.trans he.size
  form id := (later.form id).trans (he.form id)
  parent id := (later.parent id).trans (he.parent id)
  completable id := (later.completable id).trans (he.completable id)

theorem modifyFacts (tree : Tree) (id : NodeId) (f : Facts → Facts) :
    tree.SameShape (tree.modifyFacts id f) where
  root := rfl
  size := tree.size_modifyFacts id f
  form x := tree.form?_modify id x f
  parent x := tree.parent?_modify id x f
  completable x := by
    unfold Tree.completable Tree.modifyFacts
    rw [node?_modify]
    split
    · cases tree.node? x <;> rfl
    · rfl

variable (eq : fst.SameShape snd)

include eq

theorem expr? (id : NodeId) : snd.expr? id = fst.expr? id := by
  simp only [Tree.expr?, eq.form]

theorem stmt? (id : NodeId) : snd.stmt? id = fst.stmt? id := by
  simp only [Tree.stmt?, eq.form]

theorem type? (id : NodeId) : snd.type? id = fst.type? id := by
  simp only [Tree.type?, eq.form]

theorem children (id : NodeId) : snd.children id = fst.children id := by
  simp only [Tree.children, eq.form]

theorem isMethod (id : NodeId) : snd.isMethod id = fst.isMethod id := by
  simp only [Tree.isMethod, eq.stmt?]

theorem fuel : snd.fuel = fst.fuel := by
  simp only [Tree.fuel, eq.size]

theorem has (id : NodeId) : snd.Has id ↔ fst.Has id := by
  rw [has_iff_lt, has_iff_lt, eq.size]

theorem ancestors (id : NodeId) : snd.ancestors id = fst.ancestors id := by
  have win : ∀ steps id, snd.ancestorsWithin steps id = fst.ancestorsWithin steps id := by
    intro steps
    induction steps with
    | zero => exact fun _ => rfl
    | succ steps ih =>
      intro id
      simp only [ancestorsWithin, eq.parent, ih]
  rw [Tree.ancestors, eq.fuel, win, Tree.ancestors]

theorem ancestorsInMethod (id : NodeId) : snd.ancestorsInMethod id = fst.ancestorsInMethod id := by
  simp only [Tree.ancestorsInMethod, eq.ancestors, eq.isMethod]

theorem preorder (id : NodeId) : snd.preorder id = fst.preorder id := by
  have win : ∀ n id, snd.preorderWithin n id = fst.preorderWithin n id := by
    intro n
    induction n with
    | zero => exact fun _ => rfl
    | succ n ih =>
      intro id
      rw [preorderWithin, preorderWithin, eq.children, funext ih]
  rw [Tree.preorder, eq.fuel, win, Tree.preorder]

theorem declaresLocal (name : String) (id : NodeId) :
    snd.declaresLocal name id = fst.declaresLocal name id := by
  simp only [Tree.declaresLocal, eq.stmt?]

theorem declaredIn (name : String) (c : NodeId) (stmt : Stmt) :
    snd.declaredIn name c stmt = fst.declaredIn name c stmt := by
  have names : snd.declaresLocal name = fst.declaresLocal name :=
    funext (eq.declaresLocal name)
  cases stmt <;> simp only [Tree.declaredIn, declaredBefore, names]

theorem findLocal (id : NodeId) (name : String) :
    snd.findLocal id name = fst.findLocal id name := by
  have along : ∀ ancestors id, snd.findLocalAlong name id ancestors =
      fst.findLocalAlong name id ancestors := by
    intro ancestors
    induction ancestors with
    | nil => exact fun _ => rfl
    | cons up rest ih =>
      intro id
      simp only [findLocalAlong, eq.stmt?, eq.declaredIn, ih]
  rw [Tree.findLocal, eq.ancestors, along, Tree.findLocal]

theorem findTypedef (id : NodeId) (name : String) :
    snd.findTypedef id name = fst.findTypedef id name := by
  have defines : snd.definesType name = fst.definesType name := by
    funext id
    simp only [definesType, eq.stmt?]
  have inBlock : snd.typedefIn name = fst.typedefIn name := by
    funext block
    simp only [typedefIn, eq.stmt?, defines]
  rw [Tree.findTypedef, eq.ancestorsInMethod, inBlock, Tree.findTypedef]

end SameShape

end TreeCompiler.Tree
