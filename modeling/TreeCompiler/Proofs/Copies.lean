import TreeCompiler.Proofs.FreshTrees
import TreeCompiler.Proofs.LabelScopes
import TreeCompiler.Proofs.Renaming
import TreeCompiler.Tree.Copy

/-!
# Copies of subtrees

A copy is put behind all nodes of a tree, children first. It consists of as many nodes as are met
below the original, says the same, and is linked only within itself; dropping it gives the tree
back.
-/

namespace TreeCompiler

namespace Form

variable {σ : Type} {f : NodeId → StateM σ NodeId}

theorem map_mapM_run {α β : Type} {step : α → StateM σ α} {view : α → β}
    (blind : ∀ a s, view ((step a).run s).run.1 = view a) (as : List α) (s : σ) :
    ((as.mapM step).run s).run.1.map view = as.map view := by
  induction as generalizing s with
  | nil => rfl
  | cons a rest ih =>
    rw [List.mapM_cons]
    exact congrArg₂ List.cons (blind a s) (ih _)

/-- Passing the children of a form through a step changes nothing else about it. -/
theorem shell_mapChildrenM (form : Form) (s : σ) :
    ((form.mapChildrenM f).run s).run.1.shell = form.shell := by
  have option : ∀ (id : Option NodeId) s,
      ((id.mapM f).run s).run.1.map (fun _ => (⟨0⟩ : NodeId)) = id.map fun _ => ⟨0⟩ := by
    intro id s
    cases id <;> rfl
  unfold shell
  cases form with
  | stmt stmt =>
    cases stmt <;>
      simp [mapChildrenM, Stmt.mapChildrenM, mapChildren_stmt, Stmt.renamed, map_mapM_run, option]
  | expr expr =>
    cases expr <;>
      simp [mapChildrenM, Expr.mapChildrenM, mapChildren_expr, Expr.renamed, map_mapM_run, option]
  | type ty =>
    cases ty <;> simp [mapChildrenM, mapChildren, TypeExpr.mapChildrenM, map_mapM_run]

theorem run_mapM_takeNext {ids copies : List NodeId} (eq : copies.length = ids.length) :
    (ids.mapM takeNext).run copies = (copies, []) := by
  induction ids generalizing copies with
  | nil =>
    rw [List.length_eq_zero_iff.mp eq]
    rfl
  | cons id rest ih =>
    cases copies with
    | nil => simp at eq
    | cons copy others =>
      have hf : (rest.mapM takeNext >>= fun next => pure (copy :: next)).run others =
          (copy :: others, []) := by
        rw [StateT.run_bind, ih (Nat.succ.inj eq)]
        rfl
      rw [List.mapM_cons]
      exact hf

theorem children_withChildren (form : Form) {copies : List NodeId}
    (eq : copies.length = form.children.length) : (form.withChildren copies).children = copies := by
  have hp := congrArg (fun step => (StateT.run step copies).1) (children_mapChildrenM takeNext form)
  rw [run_mapM_takeNext eq] at hp
  exact hp

end Form

namespace Tree

variable {tree s now mid after : Tree} {id : NodeId} {ids tops more copies : List NodeId} {n : Nat}

theorem has_of_child {c : NodeId} (mem : c ∈ tree.children id) : tree.Has id := by
  cases hf : tree.node? id with
  | none => simp [children, form?, hf] at mem
  | some node => simp [Has, hf]

theorem has_of_parent {up : NodeId} (lk : tree.parent? id = some up) : tree.Has id := by
  cases hf : tree.node? id with
  | none => simp [parent?, hf] at lk
  | some node => simp [Has, hf]

theorem node?_setParents (up : Option NodeId) (ids : List NodeId) (tree : Tree) (id : NodeId) :
    (ids.foldl (fun tree c => tree.setParent c up) tree).node? id =
      if id ∈ ids then (tree.node? id).map
      fun node => { node with parent := up } else tree.node? id := by
  induction ids generalizing tree with
  | nil => rfl
  | cons x rest ih =>
    rw [List.foldl_cons, ih, setParent, node?_modify]
    by_cases eq : id = x <;> by_cases hi : id ∈ rest <;> cases tree.node? id <;>
      simp [eq, hi]

theorem node?_addNode (tree : Tree) (node : Node) (id : NodeId) : (tree.addNode node).2.node? id =
    if id.index = tree.size then some node else if id ∈ node.form.children then
      (tree.node? id).map fun node => { node with parent := some ⟨tree.size⟩ }
    else tree.node? id := by
  have size : ∀ (ids : List NodeId) (tree : Tree) up,
      (ids.foldl (fun tree c => tree.setParent c up) tree).nodes.size = tree.size := by
    intro ids
    induction ids with
    | nil => exact fun _ _ => rfl
    | cons x rest ih => exact fun tree up => (ih _ up).trans (by simp [setParent, modify, Tree.size])
  rw [← node?_setParents, addNode]
  refine Array.getElem?_push.trans ?_
  rw [size]
  rfl

theorem size_addNode (tree : Tree) (node : Node) : (tree.addNode node).2.size = tree.size + 1 := by
  have last : (tree.addNode node).2.Has ⟨tree.size⟩ := by simp [Has, node?_addNode]
  have none : ¬(tree.addNode node).2.Has ⟨tree.size + 1⟩ := by
    simp [Has, node?_addNode, show tree.node? ⟨tree.size + 1⟩ = none from Array.getElem?_eq_none (Nat.le_succ _)]
  rw [has_iff_lt] at last none
  dsimp only at last none
  omega

/-- A table whose links lead to its nodes, and down without a circle. -/
structure IsArena (tree : Tree) : Prop where
  rooted : ∀ r, tree.root = some r → tree.Has r
  has : ∀ id c, c ∈ tree.children id → tree.Has c
  acyclic : ∀ id c, c ∈ tree.children id → ¬tree.Below c id

theorem isArena_of_table (rooted : ∀ r, tree.root = some r → tree.Has r)
    (table : ∀ i < tree.size, ∀ c ∈ tree.children ⟨i⟩, c.index < i) : tree.IsArena := by
  have down : ∀ id c, c ∈ tree.children id → c.index < id.index ∧ id.index < tree.size :=
    fun id c mem =>
      have hi := tree.has_iff_lt.mp (has_of_child mem)
      ⟨table id.index hi c mem, hi⟩
  have falls : ∀ {top id}, tree.Below top id → id.index ≤ top.index := by
    intro top id hb
    induction hb with
    | root => exact Nat.le_refl _
    | child _ mem ih => exact Nat.le_trans (Nat.le_of_lt (down _ _ mem).1) ih
  refine ⟨rooted, fun id c mem => ?_, fun id c mem hb =>
    Nat.not_le_of_lt (down id c mem).1 (falls hb)⟩
  obtain ⟨less, hi⟩ := down id c mem
  exact tree.has_iff_lt.mpr (by omega)

/-- A node that is linked only to nodes from a place on. -/
structure IsBehind (place : Nat) (node : Node) : Prop where
  down : ∀ c ∈ node.form.children, place ≤ c.index
  up : ∀ up, node.parent = some up → place ≤ up.index

/-- What is done behind the nodes of a tree: they are left as they are, and no link leads to
them. -/
structure Beside (s now : Tree) : Prop where
  root : now.root = s.root
  size : s.size ≤ now.size
  nodes : ∀ id, id.index < s.size → now.node? id = s.node? id
  behind : ∀ id node, s.size ≤ id.index → now.node? id = some node → IsBehind s.size node

theorem Beside.truncate (beside : s.Beside now) (rooted : ∀ r, s.root = some r → s.Has r) :
    now.truncate s.size = s := by
  have nodes : now.nodes.take s.size = s.nodes := by
    refine Array.ext_getElem? fun i => ?_
    have larger := beside.size
    rw [Array.take_eq_extract, Array.getElem?_extract]
    by_cases hi : i < s.size
    · rw [if_pos (by unfold Tree.size at *; omega), Nat.zero_add]
      exact beside.nodes ⟨i⟩ hi
    · rw [if_neg (by unfold Tree.size at *; omega), Array.getElem?_eq_none (Nat.le_of_not_lt hi)]
  have r : now.root.filter (·.index < s.size) = s.root := by
    rw [beside.root]
    cases hf : s.root with
    | none => rfl
    | some r => simp [Option.filter, s.has_iff_lt.mp (rooted r hf)]
  rw [Tree.truncate, nodes, r]

/-- Nodes were added behind those of a tree, which are left as they are: the tops have no parent,
and every other new node is the child of a new one. -/
structure Grove (s : Tree) (tops : List NodeId) (now : Tree) : Prop where
  root : now.root = s.root
  size : s.size ≤ now.size
  nodes : ∀ id, id.index < s.size → now.node? id = s.node? id
  added : ∀ id, s.size ≤ id.index → now.Has id → id ∈ tops ∨ ∃ up, s.size ≤ up.index ∧ id ∈ now.children up
  linked : ∀ id c, s.size ≤ id.index → c ∈ now.children id → s.size ≤ c.index ∧ now.parent? c = some id
  free : ∀ top ∈ tops, s.size ≤ top.index ∧ now.Has top ∧ now.parent? top = none
  distinct : tops.Nodup

namespace Grove

theorem refl (tree : Tree) : tree.Grove [] tree where
  root := rfl
  size := Nat.le_refl _
  nodes _ _ := rfl
  added id far has := absurd (tree.has_iff_lt.mp has) (Nat.not_lt.mpr far)
  linked id c far mem := absurd (tree.has_iff_lt.mp (has_of_child mem)) (Nat.not_lt.mpr far)
  free := by simp
  distinct := List.nodup_nil

theorem append (fst : s.Grove tops mid) (snd : mid.Grove more after) :
    s.Grove (tops ++ more) after := by
  have kept : ∀ {id}, mid.Has id → after.node? id = mid.node? id :=
    fun has => snd.nodes _ (mid.has_iff_lt.mp has)
  have larger := fst.size
  refine ⟨snd.root.trans fst.root, Nat.le_trans larger snd.size, fun id hi =>
    (snd.nodes id (by omega)).trans (fst.nodes id hi), fun id far has => ?_,
    fun id c far mem => ?_, fun top mem => ?_, ?_⟩
  · by_cases old : id.index < mid.size
    · refine (fst.added id far (mid.has_iff_lt.mpr old)).imp (fun mem => by simp [mem]) ?_
      rintro ⟨up, farUp, mem⟩
      exact ⟨up, farUp, by rwa [children, form?, kept (has_of_child mem)]⟩
    · refine (snd.added id (by omega) has).imp (fun mem => by simp [mem]) ?_
      rintro ⟨up, farUp, mem⟩
      exact ⟨up, by omega, mem⟩
  · by_cases old : id.index < mid.size
    · rw [children, form?, snd.nodes id old] at mem
      obtain ⟨farChild, lk⟩ := fst.linked id c far mem
      exact ⟨farChild, by rwa [parent?, kept (has_of_parent lk)]⟩
    · obtain ⟨farChild, lk⟩ := snd.linked id c (by omega) mem
      exact ⟨by omega, lk⟩
  · rcases List.mem_append.mp mem with mem | mem
    · obtain ⟨far, has, free⟩ := fst.free top mem
      exact ⟨far, by rwa [Has, kept has], by rwa [parent?, kept has]⟩
    · obtain ⟨far, has, free⟩ := snd.free top mem
      exact ⟨by omega, has, free⟩
  · refine List.nodup_append.mpr ⟨fst.distinct, snd.distinct, fun top mem x memOther eq => ?_⟩
    have less := mid.has_iff_lt.mp (fst.free top mem).2.1
    have most := (snd.free x memOther).1
    subst eq
    omega

theorem addNode (grove : s.Grove tops now) (node : Node) (ps : node.form.children = tops)
    (free : node.parent = none) : s.Grove [⟨now.size⟩] (now.addNode node).2 := by
  have larger := grove.size
  have here : (now.addNode node).2.node? ⟨now.size⟩ = some node := by simp [node?_addNode]
  have form : ∀ {id : NodeId}, id.index ≠ now.size → (now.addNode node).2.form? id = now.form? id := by
    intro id old
    rw [form?, node?_addNode, if_neg old]
    split
    · simp [form?, Function.comp_def]
    · rfl
  have apart : ∀ {id : NodeId}, now.Has id → id.index ≠ now.size :=
    fun has => Nat.ne_of_lt (now.has_iff_lt.mp has)
  have size := now.size_addNode node
  refine ⟨?_, by omega, fun id hi => ?_, fun id far has => ?_, fun id c far mem => ?_, ?_, by simp⟩
  · have r : ∀ (ids : List NodeId) (tree : Tree) par,
        (ids.foldl (fun tree c => tree.setParent c par) tree).root = tree.root := by
      intro ids
      induction ids with
      | nil => exact fun _ _ => rfl
      | cons x rest ih => exact fun tree par => ih _ par
    exact (r _ _ _).trans grove.root
  · have out : id ∉ tops := fun mem => by
      have far := (grove.free id mem).1
      omega
    rw [node?_addNode, if_neg (by omega), ps, if_neg out, grove.nodes id hi]
  · by_cases isNew : id.index = now.size
    · exact .inl (by simp [← isNew])
    · have old : now.Has id := by
        rw [has_iff_lt, size] at has
        rw [has_iff_lt]
        omega
      right
      rcases grove.added id far old with mem | ⟨up, farUp, mem⟩
      · exact ⟨⟨now.size⟩, larger, by simpa [children, form?, here, ps] using mem⟩
      · exact ⟨up, farUp, by rwa [children, form (apart (has_of_child mem))]⟩
  · by_cases isNew : id.index = now.size
    · obtain rfl : id = ⟨now.size⟩ := by rw [← isNew]
      rw [children, form?, here] at mem
      have isTop : c ∈ tops := by simpa [ps] using mem
      obtain ⟨farChild, has, -⟩ := grove.free c isTop
      obtain ⟨old, hf⟩ := Option.isSome_iff_exists.mp has
      refine ⟨farChild, ?_⟩
      rw [parent?, node?_addNode, if_neg (apart has), ps, if_pos isTop, hf]
      rfl
    · rw [children, form isNew] at mem
      obtain ⟨farChild, lk⟩ := grove.linked id c far mem
      have out : c ∉ tops := fun isTop => by simp [(grove.free c isTop).2.2] at lk
      refine ⟨farChild, ?_⟩
      rwa [parent?, node?_addNode, if_neg (apart (has_of_parent lk)), ps, if_neg out]
  · simp [Has, parent?, here, free, larger]

end Grove

/-- The subtree at one node is a copy of the subtree of another tree at another node, down to a
depth at which both have ended. -/
def Mirrors (s now : Tree) : Nat → NodeId → NodeId → Prop
  | 0, _, _ => False
  | n + 1, id, new => ∃ node copies up, s.node? id = some node ∧
    now.node? new = some { node with form := node.form.withChildren copies, parent := up } ∧
    List.Forall₂ (Mirrors s now n) node.form.children copies

theorem Mirrors.keep (kept : ∀ id node, now.node? id = some node →
      ∃ up, after.node? id = some { node with parent := up }) {new : NodeId}
    (mirrors : Mirrors s now n id new) : Mirrors s after n id new := by
  induction n generalizing id new with
  | zero => exact mirrors
  | succ n ih =>
    obtain ⟨node, copies, up, hf, copied, ps⟩ := mirrors
    obtain ⟨up, copied⟩ := kept new _ copied
    exact ⟨node, copies, up, hf, copied, ps.imp fun _ _ => ih⟩

/-- Nodes of a tree are copied behind those of a larger one, each with all that is below it down to
a depth. -/
structure Copied (s : Tree) (n : Nat) (now : Tree) (ids copies : List NodeId) (after : Tree) : Prop
    extends now.Grove copies after where
  mirrors : List.Forall₂ (Mirrors s after n) ids copies
  count : after.size = now.size + (ids.flatMap (s.preorderWithin n)).length

namespace Copied

theorem append {others : List NodeId} (fst : Copied s n now ids copies mid)
    (snd : Copied s n mid others more after) :
    Copied s n now (ids ++ others) (copies ++ more) after where
  toGrove := fst.toGrove.append snd.toGrove
  mirrors := by
    refine List.rel_append (fst.mirrors.imp fun _ _ => Mirrors.keep fun id node hf => ?_) snd.mirrors
    have has : mid.Has id := by simp [Has, hf]
    exact ⟨node.parent, (snd.nodes id (mid.has_iff_lt.mp has)).trans hf⟩
  count := by
    rw [List.flatMap_append, List.length_append, snd.count, fst.count]
    omega

/-- Once its children are copied, so is a node. -/
theorem node {node : Node} (hf : s.node? id = some node)
    (ps : Copied s n now node.form.children copies mid) : Copied s (n + 1) now [id] [⟨mid.size⟩]
      (mid.addNode { node with form := node.form.withChildren copies, parent := none }).2 := by
  have arity := node.form.children_withChildren ps.mirrors.length_eq.symm
  have grove := ps.toGrove.addNode { node with form := node.form.withChildren copies, parent := none } arity rfl
  refine ⟨grove, .cons ⟨node, copies, none, hf, by simp [node?_addNode], ?_⟩ .nil, ?_⟩
  · refine ps.mirrors.imp fun _ _ => Mirrors.keep fun id x here => ?_
    have has : mid.Has id := by simp [Has, here]
    rw [node?_addNode, if_neg (Nat.ne_of_lt (mid.has_iff_lt.mp has)), here]
    split
    · exact ⟨_, rfl⟩
    · exact ⟨x.parent, rfl⟩
  · have children : s.children id = node.form.children := by simp [children, form?, hf]
    rw [size_addNode, ps.count]
    simp [preorderWithin, children]
    omega

end Copied

/-- What goes down a tree without circles ends before the depth is used up: the nodes above the one
it is at are no more than there are. -/
theorem fuel_induction (has : ∀ id c, c ∈ tree.children id → tree.Has c)
    (acyclic : ∀ id c, c ∈ tree.children id → ¬tree.Below c id) {P : Nat → NodeId → Prop}
    (step : ∀ n id, tree.Has id → (∀ c ∈ tree.children id, P n c) → P (n + 1) id)
    (hp : tree.Has id) : P tree.fuel id := by
  suffices deep : ∀ n id (above : List NodeId), above.Nodup → (∀ up ∈ above, tree.Has up) →
      (∀ up ∈ above, ∃ c ∈ tree.children up, tree.Below c id) → tree.Has id → tree.size < n + above.length →
      P n id from
    deep _ id [] List.nodup_nil (by simp) (by simp) hp (by simp [fuel])
  intro n
  induction n with
  | zero =>
    intro id above hu inside _ _ enough
    have bounded := length_le_size hu inside
    omega
  | succ n ih =>
    intro id above hu inside under hp enough
    have fresh : id ∉ above := by
      intro mem
      obtain ⟨c, hi, hb⟩ := under id mem
      exact acyclic id c hi hb
    refine step n id hp fun c mem => ih c (id :: above) (List.nodup_cons.mpr ⟨fresh, hu⟩)
      (List.forall_mem_cons.mpr ⟨hp, inside⟩) (List.forall_mem_cons.mpr ⟨⟨c, mem, .root⟩, fun up isAbove => ?_⟩)
      (has id c mem) (by simp only [List.length_cons]; omega)
    obtain ⟨x, win, hb⟩ := under up isAbove
    exact ⟨x, win, hb.child mem⟩

/-- A node can be copied behind a larger tree, down to a depth. -/
def Copies (s : Tree) (n : Nat) (id : NodeId) : Prop :=
  ∀ now : Tree, s.size ≤ now.size → (∀ x, x.index < s.size → now.node? x = s.node? x) →
    Copied s n now [id] [((copyWithin n id).run now).1] ((copyWithin n id).run now).2

theorem copies_of_children (n : Nat) (id : NodeId) (has : s.Has id)
    (ps : ∀ c ∈ s.children id, s.Copies n c) : s.Copies (n + 1) id := by
  intro now larger kept
  obtain ⟨node, hf⟩ := Option.isSome_iff_exists.mp has
  have children : s.children id = node.form.children := by simp [children, form?, hf]
  rw [children] at ps
  -- the children are copied one behind the other
  have all : ∀ ids : List NodeId, (∀ c ∈ ids, s.Copies n c) → ∀ now : Tree, s.size ≤ now.size →
      (∀ x, x.index < s.size → now.node? x = s.node? x) →
      Copied s n now ids ((ids.mapM (copyWithin n)).run now).1 ((ids.mapM (copyWithin n)).run now).2 := by
    intro ids
    induction ids with
    | nil => exact fun _ now _ _ => ⟨.refl now, .nil, rfl⟩
    | cons c rest ih =>
      intro each now larger kept
      have fst := each c (by simp) now larger kept
      have snd := ih (fun x mem => each x (by simp [mem])) _ (Nat.le_trans larger fst.size)
        fun x less => (fst.nodes x (by omega)).trans (kept x less)
      rw [List.mapM_cons]
      exact fst.append snd
  have ran : (copyWithin (n + 1) id).run now = (do
      let copies ← node.form.children.mapM (copyWithin n)
      modifyGet (·.addNode { node with form := node.form.withChildren copies, parent := none }) :
      StateM Tree NodeId).run now := by
    rw [copyWithin]
    simp only [StateT.run_bind, StateT.run_get, pure_bind]
    simp only [kept id (s.has_iff_lt.mp has), hf]
    rfl
  rw [ran]
  exact (all node.form.children ps now larger kept).node hf

theorem copied_copy (arena : tree.IsArena) (has : tree.Has id) :
    Copied tree tree.fuel tree [id] [(tree.copy id).1] (tree.copy id).2 :=
  fuel_induction arena.has arena.acyclic copies_of_children has tree (Nat.le_refl _) fun _ _ => rfl

/-- What a node carries besides its form. -/
def traits (tree : Tree) (id : NodeId) : Option (Span × Bool × Facts) :=
  (tree.node? id).map fun node => (node.span, node.completable, node.facts)

namespace Mirrors

variable {new : NodeId} (mirrors : Mirrors s now n id new)

include mirrors

theorem sameShapeWithin (kept : ∀ x, s.Has x → now.node? x = s.node? x) {more : Nat}
    (enough : n ≤ more) : now.sameShapeWithin more id new = true := by
  induction n generalizing id new more with
  | zero => exact mirrors.elim
  | succ n ih =>
    obtain ⟨more, rfl⟩ : ∃ rest, more = rest + 1 := ⟨more - 1, by omega⟩
    obtain ⟨node, copies, up, hf, copied, ps⟩ := mirrors
    have arity := node.form.children_withChildren ps.length_eq.symm
    have shell : (node.form.withChildren copies).shell = node.form.shell := Form.shell_mapChildrenM _ _
    rw [Tree.sameShapeWithin, kept id (by simp [Has, hf]), hf, copied]
    simp only [arity, shell, ps.length_eq, beq_self_eq_true, Bool.true_and, List.all_eq_true]
    rintro ⟨c, copy⟩ mem
    exact ih ((List.forall₂_iff_zip.mp ps).2 mem) (by omega)

theorem traits_preorderWithin {more most : Nat} (enough : n ≤ more) (deep : n ≤ most) :
    (now.preorderWithin most new).map now.traits = (s.preorderWithin more id).map s.traits := by
  induction n generalizing id new more most with
  | zero => exact mirrors.elim
  | succ n ih =>
    obtain ⟨more, rfl⟩ : ∃ rest, more = rest + 1 := ⟨more - 1, by omega⟩
    obtain ⟨most, rfl⟩ : ∃ rest, most = rest + 1 := ⟨most - 1, by omega⟩
    obtain ⟨node, copies, up, hf, copied, ps⟩ := mirrors
    have arity := node.form.children_withChildren ps.length_eq.symm
    have old : s.children id = node.form.children := by simp [children, form?, hf]
    have fresh : now.children new = copies := by simp [children, form?, copied, arity]
    rw [preorderWithin, preorderWithin, old, fresh, List.map_cons, List.map_cons, List.map_flatMap,
      List.map_flatMap]
    congr 1
    · simp [traits, hf, copied]
    · clear arity old fresh hf copied
      generalize node.form.children = ids at ps
      induction ps with
      | nil => rfl
      | cons here _ rest => rw [List.flatMap_cons, List.flatMap_cons,
        ih here (Nat.le_of_succ_le_succ enough) (Nat.le_of_succ_le_succ deep), rest]

end Mirrors

theorem Grove.beside (grove : s.Grove tops now) : s.Beside now where
  root := grove.root
  size := grove.size
  nodes := grove.nodes
  behind id node far hf := by
    refine ⟨fun c mem => (grove.linked id c far ?_).1, fun up lk => ?_⟩
    · simpa [children, form?, hf] using mem
    · have par : now.parent? id = some up := by simpa [parent?, hf] using lk
      rcases grove.added id far (has_of_parent par) with isTop | ⟨x, farOther, mem⟩
      · simp [(grove.free id isTop).2.2] at par
      · obtain rfl : x = up := by simpa [(grove.linked x id farOther mem).2] using par
        exact farOther

/-- What is below a new node is new. -/
theorem Grove.added_of_preorderWithin (grove : s.Grove tops now) {more : Nat} (has : now.Has id)
    (far : s.size ≤ id.index) : ∀ x ∈ now.preorderWithin more id, s.size ≤ x.index ∧ now.Has x := by
  induction more generalizing id with
  | zero => simp [preorderWithin]
  | succ more ih =>
    intro x mem
    rcases List.mem_cons.mp mem with rfl | mem
    · exact ⟨far, has⟩
    · obtain ⟨c, isChild, hb⟩ := List.mem_flatMap.mp mem
      obtain ⟨farChild, lk⟩ := grove.linked id c far isChild
      exact ih (has_of_parent lk) farChild x hb

/-- A copy leaves all nodes as they were and adds as many as are met below the original. They are
the subtree of the copy, which says the same as the original and carries the same node by node. The
copy has no parent, every other new node is linked to the new one whose child it is, and dropping
the new nodes gives the tree back. -/
theorem copy_is_faithful (tree : Tree) (arena : tree.IsArena) (id : NodeId) (has : tree.Has id) :
    ∃ new after, tree.copy id = (new, after) ∧
      (∀ other, tree.Has other → after.node? other = tree.node? other) ∧
      after.size = tree.size + (tree.preorder id).length ∧
      (∀ other ∈ after.preorder new, tree.size ≤ other.index ∧ after.Has other) ∧
      after.sameShape id new = true ∧
      (after.preorder new).map after.traits = (tree.preorder id).map tree.traits ∧
      after.parent? new = none ∧
      (∀ other, tree.size ≤ other.index → after.Has other → other ≠ new → ∃ up,
        tree.size ≤ up.index ∧ after.parent? other = some up ∧ other ∈ after.children up) ∧
      (∀ up child, tree.size ≤ up.index → child ∈ after.children up → after.parent? child = some up) ∧
      after.truncate tree.size = tree := by
  have copied := copied_copy arena has
  obtain ⟨far, hasNew, free⟩ := copied.free (tree.copy id).1 (by simp)
  have mirrors := (List.forall₂_cons.mp copied.mirrors).1
  have kept : ∀ other, tree.Has other → (tree.copy id).2.node? other = tree.node? other :=
    fun other has => copied.nodes other (tree.has_iff_lt.mp has)
  have deep : tree.fuel ≤ (tree.copy id).2.fuel := Nat.succ_le_succ copied.size
  refine ⟨(tree.copy id).1, (tree.copy id).2, rfl, kept, by simpa [preorder] using copied.count,
    copied.added_of_preorderWithin hasNew far, mirrors.sameShapeWithin kept deep,
    mirrors.traits_preorderWithin (Nat.le_refl _) deep, free, fun other farOther hasOther ne => ?_,
    fun up child farUp mem => (copied.linked up child farUp mem).2, copied.beside.truncate arena.rooted⟩
  rcases copied.added other farOther hasOther with isTop | ⟨up, farUp, mem⟩
  · exact absurd (List.mem_singleton.mp isTop) ne
  · exact ⟨up, farUp, (copied.linked up other farUp mem).2, mem⟩

end Tree

/-- A number and the same number in parentheses, which share a node. -/
def sharedSum : Tree where
  nodes := #[{ form := .expr (.literal (.int 1)), parent := some ⟨2⟩, facts := { stage := .resolved } },
    { form := .expr (.paren ⟨0⟩), parent := some ⟨2⟩ },
    { form := .expr (.binary .add ⟨1⟩ ⟨0⟩), completable := false }]

/-- The shared node is copied twice. -/
theorem sharedSum_copied : ∃ new after, sharedSum.copy ⟨2⟩ = (new, after) ∧ after.size = 3 + 4 ∧
    after.sameShape ⟨2⟩ new = true ∧
    (after.preorder new).map after.traits = (sharedSum.preorder ⟨2⟩).map sharedSum.traits ∧
    after.parent? new = none ∧ after.truncate 3 = sharedSum := by
  have arena : sharedSum.IsArena := Tree.isArena_of_table (by rintro _ ⟨⟩) (by decide)
  obtain ⟨new, after, copied, -, size, -, shape, traits, free, -, -, dropped⟩ :=
    Tree.copy_is_faithful sharedSum arena ⟨2⟩ rfl
  exact ⟨new, after, copied, size, shape, traits, free, dropped⟩

end TreeCompiler
