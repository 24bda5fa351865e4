import TreeCompiler.Proofs.TreeChanges

/-!
# Fresh trees

A tree that was built from the leaves up and that nothing was done to yet: nothing is known about
its nodes, every node is linked to the one whose child it is, and children come before their parents
in the table.
-/

namespace TreeCompiler.Tree

/-- The nodes of the tree under a root. -/
inductive Below (tree : Tree) (root : NodeId) : NodeId → Prop
  | root : Below tree root root
  | child {id child : NodeId} (hb : Below tree root id) (mem : child ∈ tree.children id) :
    Below tree root child

/-- The nodes under a root that only statements lie above. -/
inductive Hosts (tree : Tree) (root : NodeId) : NodeId → Prop
  | root : Hosts tree root root
  | child {id child : NodeId} {stmt : Stmt} (hosts : Hosts tree root id)
    (hf : tree.stmt? id = some stmt) (mem : child ∈ stmt.children) : Hosts tree root child

/-- The links of a tree under a root. -/
structure IsLinked (tree : Tree) (r : NodeId) : Prop where
  /-- Ids fit into a machine word. -/
  small : tree.size ≤ UInt32.size
  top : tree.parent? r = none
  linked : ∀ id c, tree.Below r id → c ∈ tree.children id → tree.parent? c = some id
  upward : ∀ id c, tree.Below r id → c ∈ tree.children id → c.index < id.index

/-- A tree as it was built. -/
structure IsFresh (tree : Tree) (r : NodeId) : Prop extends tree.IsLinked r where
  blank : ∀ id, tree.facts id = {}

theorem links_of_table {tree : Tree} (table : ∀ i < tree.size, ∀ c ∈ tree.children ⟨i⟩,
      tree.parent? c = some ⟨i⟩ ∧ c.index < i) (id c : NodeId)
    (mem : c ∈ tree.children id) : tree.parent? c = some id ∧ c.index < id.index := by
  by_cases hp : tree.Has id
  · exact table id.index (tree.has_iff_lt.mp hp) c mem
  · have absent : tree.node? id = none := by simpa [Has] using hp
    simp [children, form?, absent] at mem

/-- A tree is fresh if its table says so: a node without facts comes before its parent and is linked
to it. -/
theorem isFresh_of_table {tree : Tree} {r : NodeId} (small : tree.size ≤ UInt32.size)
    (top : tree.parent? r = none) (table : ∀ i < tree.size, tree.facts ⟨i⟩ = {} ∧
      ∀ c ∈ tree.children ⟨i⟩, tree.parent? c = some ⟨i⟩ ∧ c.index < i) : tree.IsFresh r := by
  have lk := links_of_table fun i hi => (table i hi).2
  refine ⟨⟨small, top, ?_, ?_⟩, ?_⟩
  · exact fun id c _ mem => (lk id c mem).1
  · exact fun id c _ mem => (lk id c mem).2
  · intro id
    by_cases hp : tree.Has id
    · exact (table id.index (tree.has_iff_lt.mp hp)).1
    · exact tree.facts_of_not_has hp

theorem Hosts.isBelow {tree : Tree} {r id : NodeId} (hosts : tree.Hosts r id) :
    tree.Below r id := by
  induction hosts with
  | root => exact .root
  | child _ hf mem ih => exact ih.child (by rwa [tree.children_of_stmt hf])

/-- A node that stands for another: the same one, or what its parentheses hold. -/
inductive Strips (tree : Tree) : NodeId → NodeId → Prop
  | self (id : NodeId) : Strips tree id id
  | paren {id i new : NodeId} (held : tree.expr? id = some (.paren i))
    (hp : tree.stmt? i = none) (rest : Strips tree i new) : Strips tree id new

namespace Strips

variable {tree : Tree} {r old mid new : NodeId}

theorem eq_of_stmt (hs : tree.Strips old new) (stmt : (tree.stmt? old).isSome) : new = old := by
  cases hs with
  | self => rfl
  | paren held =>
    rw [tree.stmt?_of_expr held] at stmt
    simp at stmt

theorem stmt?_eq_none (hs : tree.Strips old new) (hp : tree.stmt? old = none) :
    tree.stmt? new = none := by
  induction hs with
  | self => exact hp
  | paren _ plainInner _ ih => exact ih plainInner

theorem eq_of_stmt_inner (hs : tree.Strips old new) (stmt : (tree.stmt? new).isSome) :
    new = old := by
  cases hf : tree.stmt? old with
  | some _ => exact hs.eq_of_stmt (by simp [hf])
  | none => simp [hs.stmt?_eq_none hf] at stmt

theorem trans (fst : tree.Strips old mid) (snd : tree.Strips mid new) : tree.Strips old new := by
  induction fst with
  | self => exact snd
  | paren held hp _ ih => exact .paren held hp (ih snd)

theorem unique {fst snd : NodeId} (left : tree.Strips old fst)
    (right : tree.Strips old snd) (hp : ∀ i, tree.expr? fst ≠ some (.paren i))
    (plainToo : ∀ i, tree.expr? snd ≠ some (.paren i)) : fst = snd := by
  induction left with
  | self =>
    cases right with
    | self => rfl
    | paren held => exact absurd held (hp _)
  | paren held _ _ ih =>
    cases right with
    | self => exact absurd held (plainToo _)
    | paren held' _ rest =>
      rw [held] at held'
      cases held'
      exact ih rest hp

theorem isBelow (hs : tree.Strips old new) (hb : tree.Below r old) : tree.Below r new := by
  induction hs with
  | self => exact hb
  | paren held _ _ ih =>
    refine ih (hb.child ?_)
    rw [tree.children_of_expr held]
    exact List.mem_singleton_self _

theorem index_le (hs : tree.Strips old new) (lk : tree.IsLinked r)
    (hb : tree.Below r old) : new.index ≤ old.index := by
  induction hs with
  | self => exact Nat.le_refl _
  | @paren id i new held hp rest ih =>
    have mem : i ∈ tree.children id := by
      rw [tree.children_of_expr held]
      exact List.mem_singleton_self _
    have lower := lk.upward id i hb mem
    have hf := ih (hb.child mem)
    omega

/-- What stands for a node from further up stands for the node above it. -/
theorem up {own : NodeId} (lk : tree.IsLinked r) (hs : tree.Strips old new)
    (hb : tree.Below r old) (ne : old ≠ new) (above : tree.Below r own)
    (mem : new ∈ tree.children own) : tree.Strips old own := by
  induction hs with
  | self => exact absurd rfl ne
  | @paren id i new held hp rest ih =>
    have c : i ∈ tree.children id := by
      rw [tree.children_of_expr held]
      exact List.mem_singleton_self _
    by_cases eq : i = new
    · subst eq
      have he := (lk.linked id i hb c).symm.trans (lk.linked own i above mem)
      rw [Option.some.inj he]
      exact .self own
    · exact .paren held hp (ih (hb.child c) eq mem)

end Strips

theorem parent?_of_size_le (tree : Tree) {id : NodeId} (outside : tree.size ≤ id.index) :
    tree.parent? id = none := by
  have none : tree.node? id = none := by
    simpa [Has] using mt tree.has_iff_lt.mp (Nat.not_lt.mpr outside)
  simp [parent?, none]

namespace IsLinked

variable {tree : Tree} {r : NodeId} (lk : tree.IsLinked r)

include lk

/-- The parent of a node under the root is the node whose child it is. -/
theorem parent {id up : NodeId} (hb : tree.Below r id) (hf : tree.parent? id = some up) :
    tree.Below r up ∧ id ∈ tree.children up ∧ id.index < up.index := by
  cases hb with
  | root =>
    rw [lk.top] at hf
    simp at hf
  | child above mem =>
    rename_i x
    obtain rfl : x = up :=
      Option.some.inj ((lk.linked x id above mem).symm.trans hf)
    exact ⟨above, mem, lk.upward x id above mem⟩

theorem ancestorsWithin_eq {id : NodeId} (hb : tree.Below r id) {steps more : Nat}
    (enough : tree.size ≤ id.index + steps) (also : tree.size ≤ id.index + more) :
    tree.ancestorsWithin steps id = tree.ancestorsWithin more id := by
  induction steps generalizing id more with
  | zero => cases more <;> simp [ancestorsWithin, tree.parent?_of_size_le (by omega : _ ≤ id.index)]
  | succ steps ih =>
    cases more with
    | zero => simp [ancestorsWithin, tree.parent?_of_size_le (by omega : _ ≤ id.index)]
    | succ more =>
      unfold ancestorsWithin
      cases hf : tree.parent? id with
      | none => rfl
      | some up =>
        obtain ⟨above, -, lower⟩ := lk.parent hb hf
        have eq : tree.ancestorsWithin steps up = tree.ancestorsWithin more up :=
          ih above (by omega) (by omega)
        simp only [eq]

theorem ancestors_child {id c : NodeId} (hb : tree.Below r id)
    (mem : c ∈ tree.children id) : tree.ancestors c = id :: tree.ancestors id := by
  have up := lk.linked id c hb mem
  have he : tree.ancestors c = id :: tree.ancestorsWithin tree.size id := by
    unfold ancestors fuel
    rw [ancestorsWithin, up]
  rw [he, ancestors, fuel,
    lk.ancestorsWithin_eq hb (Nat.le_add_left _ _) (Nat.le_add_left_of_le (Nat.le_succ _))]

theorem ancestors_root : tree.ancestors r = [] := by
  unfold ancestors fuel
  rw [ancestorsWithin, lk.top]

theorem ancestorsInMethod_child {id c : NodeId} (hb : tree.Below r id)
    (mem : c ∈ tree.children id) :
    tree.ancestorsInMethod c = if tree.isMethod id then [] else id :: tree.ancestorsInMethod id := by
  unfold ancestorsInMethod
  rw [lk.ancestors_child hb mem, List.takeWhile_cons]
  cases tree.isMethod id <;> simp

end IsLinked

end TreeCompiler.Tree
