import TreeCompiler.Proofs.LeastFixpoint
import TreeCompiler.Proofs.StagedCourses

/-!
# Trees stay whole

Parentheses make way for what they hold, wherever the call that finds them valid stops. However a
unit is used, its tree says the same without them, every child is linked to the node that lists it,
and no node is in two places.
-/

namespace TreeCompiler

open Validation

/-- What a tree says, without ids and parentheses. -/
inductive Gist where
  | node (form : Option Form) (ps : List Gist)

namespace Tree

variable {s tree : Tree} {r id : NodeId}

/-- What a tree says from a node down to a depth. -/
def gistWithin (tree : Tree) : Nat → NodeId → Gist
  | 0, _ => .node none []
  | n + 1, id =>
    match tree.expr? id with
    | some (.paren i) => tree.gistWithin n i
    | _ => .node ((tree.form? id).map (Form.mapChildren fun _ => ⟨0⟩))
      ((tree.children id).map (tree.gistWithin n))

/-- What a tree says from a node down. -/
def gist (tree : Tree) (id : NodeId) : Gist := tree.gistWithin tree.fuel id

theorem gistWithin_of_bare (bare : ∀ i, tree.expr? id ≠ some (.paren i)) (n : Nat) :
    tree.gistWithin (n + 1) id = .node ((tree.form? id).map (Form.mapChildren fun _ => ⟨0⟩))
      ((tree.children id).map (tree.gistWithin n)) := by
  unfold gistWithin
  split
  · exact absurd ‹_› (bare _)
  · rfl

/-- What stands for a node says the same. -/
theorem Peels.gistWithin_eq (peels : s.Peels tree) (linked : s.IsLinked r)
    {old new : NodeId} (hb : s.Below r old) (hs : s.Strips old new) {n win : Nat}
    (deep : old.index < n) (enough : new.index < win) :
    tree.gistWithin win new = s.gistWithin n old := by
  induction n generalizing old new win with
  | zero => omega
  | succ n ih =>
    cases hs with
    | @paren _ i _ held _ rest =>
      have mem : i ∈ s.children old := by simp [s.children_of_expr held, Expr.children]
      have lower := linked.upward old i hb mem
      simp only [gistWithin, held]
      exact ih (hb.child mem) rest (by omega) enough
    | self =>
      obtain ⟨win, rfl⟩ := Nat.exists_eq_succ_of_ne_zero (by omega : win ≠ 0)
      obtain ⟨ren, form, renames⟩ := peels.forms old
      have ps : ∀ c ∈ s.children old,
          tree.gistWithin win (ren c) = s.gistWithin n c := by
        intro c mem
        have lower := linked.upward old c hb mem
        have hfu := (renames c mem).index_le linked (hb.child mem)
        exact ih (hb.child mem) (renames c mem) (by omega) (by omega)
      have expr : tree.expr? old = (s.expr? old).map (Expr.renamed ren) := by
        unfold expr?
        rw [form]
        cases s.form? old <;> simp [Form.expr?_mapChildren]
      by_cases paren : ∃ i, s.expr? old = some (.paren i)
      · obtain ⟨i, held⟩ := paren
        rw [held] at expr
        simp only [gistWithin, held, expr, Option.map_some, Expr.renamed]
        exact ps i (by simp [s.children_of_expr held, Expr.children])
      · have bare := not_exists.mp paren
        rw [gistWithin_of_bare bare, gistWithin_of_bare fun i hf => ?_, form,
          Peels.children_of_form form, List.map_map, Option.map_map]
        · congr 1
          · simp only [Function.comp_def, Form.mapChildren_mapChildren]
          · exact List.map_congr_left ps
        · rw [expr] at hf
          obtain ⟨orig, here, eq⟩ := Option.map_eq_some_iff.mp hf
          cases orig <;> simp [Expr.renamed] at eq
          exact bare _ here

end Tree

namespace Work.Staged

variable {s : Tree} {r id : NodeId} {w : Work} (staged : w.Staged s r)
  (linked : s.IsLinked r)

include staged linked

/-- What is left of a tree was there at the start and is not gone. -/
theorem below_of_below (hb : w.tree.Below r id) : s.Below r id ∧ ¬w.Gone s r id := by
  induction hb with
  | root => exact ⟨.root, fun gone => gone.1 rfl⟩
  | child _ mem ih =>
    exact ⟨(inner_of_child linked staged.peels ih.1 mem).1.1, mt (staged.tidy.gone _ _ ih.1 mem) ih.2⟩

theorem isLinked : w.tree.IsLinked r where
  small := by
    rw [staged.peels.size]
    exact linked.small
  top := staged.tidy.top
  linked id c hb :=
    staged.tidy.linked id c (staged.below_of_below linked hb).1 (staged.below_of_below linked hb).2
  upward id c hb mem :=
    (inner_of_child linked staged.peels (staged.below_of_below linked hb).1 mem).2

theorem distinct (hd : ∀ id, s.Below r id → (s.children id).Nodup)
    (hb : w.tree.Below r id) : (w.tree.children id).Nodup := by
  have was := (staged.below_of_below linked hb).1
  obtain ⟨ren, form, renames⟩ := staged.peels.forms id
  rw [Tree.Peels.children_of_form form]
  refine (hd id was).map_on fun fst hi snd also eq => ?_
  by_contra ne
  have under : s.Below snd (ren fst) := eq ▸ (renames snd also).isBelow .root
  exact linked.disjoint_siblings was hi also (Ne.symm ne) ((renames fst hi).isBelow .root) under

end Work.Staged

/-- However a unit is used, its tree has the same root and says from there what it said without the
parentheses, its links fit the lists of children, and no node is met twice. -/
theorem Course.tree_stays_whole (course : Course) (fresh : course.work.tree.IsFresh course.root)
    (rooted : course.work.tree.root = some course.root) (present : course.work.tree.Has course.root)
    (distinct : ∀ id, course.work.tree.Below course.root id → (course.work.tree.children id).Nodup)
    (uses : List Use) :
    let tree := (uses.foldl (used course.root) course).work.tree
    tree.root = some course.root ∧ tree.gist course.root = course.work.tree.gist course.root ∧
      tree.IsLinked course.root ∧ (tree.preorder course.root).Nodup := by
  intro tree
  have linked := fresh.toIsLinked
  have staged := (advances_foldl_used linked (ordered_of_fresh fresh) uses).ordered.staged
  have deep : course.root.index < course.work.tree.fuel :=
    Nat.lt_succ_of_lt (linked.index_lt_size .root present)
  have fuel : tree.fuel = course.work.tree.fuel := congrArg (· + 1) staged.peels.size
  refine ⟨staged.peels.root.trans rooted,
    staged.peels.gistWithin_eq linked .root (.self _) deep (fuel ▸ deep), staged.isLinked linked,
    (staged.isLinked linked).nodup_preorderWithin (fun _ => staged.distinct linked distinct) .root
      (fuel ▸ deep)⟩

/-- The value in parentheses takes their place. -/
theorem repeatingUnit_stays_whole :
    let course := Session.courseOf {} {} repeatingUnit ⟨9⟩
    let uses : List Course.Use := [.resolve none, .validate]
    let tree := (uses.foldl (Course.used course.root) course).work.tree
    tree.children ⟨3⟩ = [⟨0⟩, ⟨1⟩] ∧ tree.root = some course.root ∧
      tree.gist course.root = course.work.tree.gist course.root ∧
      tree.IsLinked course.root ∧ (tree.preorder course.root).Nodup := by
  intro course uses
  have present : repeatingUnit.Has ⟨9⟩ := rfl
  have moved : (uses.foldl (Course.used course.root) course).work.tree.children ⟨3⟩ = [⟨0⟩, ⟨1⟩] := by
    cbv
  refine ⟨moved, Course.tree_stays_whole course repeatingUnit_isFresh rfl present (fun id below => ?_) uses⟩
  have inside := repeatingUnit_isFresh.toIsLinked.index_lt_size below present
  exact (by decide : ∀ index < repeatingUnit.size, (repeatingUnit.children ⟨index⟩).Nodup) id.index inside

end TreeCompiler
