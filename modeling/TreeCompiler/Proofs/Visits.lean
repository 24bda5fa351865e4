import TreeCompiler.Proofs.CheckedTrees
import TreeCompiler.Proofs.PeeledTrees

/-!
# Visits of nodes

The steps that every visit of a node is made of: it begins, goes from child to child, notes what it
finds, and ends with the node valid or failed. A parenthesised expression gives up its place before
its visit ends.
-/

namespace TreeCompiler

open Step Validation

/-! ### Changes of stages and places -/

variable {x decl : NodeId} {res ans : Option NodeId}

namespace Tree

variable {tree : Tree} {id : NodeId}

theorem setStage_self {stage : Stage} (eq : tree.stage id = stage) :
    tree.setStage id stage = tree := by
  have nodes : (tree.setStage id stage).nodes = tree.nodes := by
    apply Array.ext_getElem?
    intro i
    have view := tree.node?_modify id ⟨i⟩ fun node =>
      { node with facts := { node.facts with stage } }
    by_cases here : (⟨i⟩ : NodeId) = id
    · subst here
      rw [if_pos rfl] at view
      refine view.trans ?_
      change _ = tree.node? ⟨i⟩
      cases hf : tree.node? ⟨i⟩ with
      | none => rfl
      | some node =>
        have hn : node.facts.stage = stage := by
          simpa [Tree.stage, Tree.facts, hf] using eq
        simp [← hn]
    · rw [if_neg here] at view
      exact view
  calc tree.setStage id stage = { tree with nodes := (tree.setStage id stage).nodes } := rfl
    _ = tree := by rw [nodes]

theorem setStage_of_not_has (absent : ¬tree.Has id) (stage : Stage) :
    tree.setStage id stage = tree := by
  have out : ¬id.index < tree.nodes.size := fun hi => absent (tree.has_iff_lt.mpr hi)
  simp [setStage, modifyFacts, modify, Array.modify, Array.modifyM, out]

/-- A tree in which a child of a node was replaced. -/
structure Replaces (b t : Tree) (par old new : NodeId) : Prop where
  size : t.size = b.size
  facts : ∀ x, t.facts x = b.facts x
  form : ∀ x, x ≠ par → t.form? x = b.form? x
  swapped : t.form? par = (b.form? par).map (Form.mapChildren fun c => if c = old then new else c)
  parents : ∀ x, x ≠ old → x ≠ new → t.parent? x = b.parent? x

theorem replaces_replaceChild (tree : Tree) {par old new : NodeId} (ne : old ≠ new)
    (mem : old ∈ tree.children par) :
    tree.Replaces (tree.replaceChild par old new).2 par old new where
  size := by simp [replaceChild, ne, mem, setParent]
  facts := tree.facts_replaceChild par old new
  form x apart := by
    simp only [replaceChild, ne, if_false, List.contains_iff_mem, mem, if_true, form?_setParent]
    simp [form?, node?_modify, apart]
  swapped := by
    simp only [replaceChild, ne, if_false, List.contains_iff_mem, mem, if_true, form?_setParent]
    cases hf : tree.node? par <;> simp [form?, node?_modify, hf]
  parents x notOld notNew := by
    simp only [replaceChild, ne, if_false, List.contains_iff_mem, mem, if_true,
      parent?_setParent_ne _ notOld, parent?_setParent_ne _ notNew]
    simp only [parent?, node?_modify]
    split
    · cases tree.node? x <;> rfl
    · rfl

theorem parent?_replaceChild (tree : Tree) {par old new : NodeId} (ne : old ≠ new)
    (mem : old ∈ tree.children par) (hp : tree.Has new) :
    (tree.replaceChild par old new).2.parent? new = some par := by
  obtain ⟨node, hf⟩ := Option.isSome_iff_exists.mp hp
  simp only [replaceChild, ne, if_false, List.contains_iff_mem, mem, if_true, parent?_setParent_ne _ ne.symm]
  simp only [parent?, setParent, node?_modify, hf, if_true]
  by_cases eq : new = par <;> simp [eq]

namespace Replaces

variable {b t : Tree} {par old new : NodeId}
  (replaces : b.Replaces t par old new)

include replaces

theorem stage (x : NodeId) : t.stage x = b.stage x := by
  simp only [Tree.stage, replaces.facts]

theorem children_other (apart : x ≠ par) : t.children x = b.children x := by
  simp only [children, replaces.form x apart]

theorem children_parent : t.children par =
      (b.children par).map fun c => if c = old then new else c := by
  unfold children
  rw [replaces.swapped]
  cases b.form? par <;> simp [Form.children_mapChildren]

theorem type?_eq (hp : b.type? par = none) (x : NodeId) : t.type? x = b.type? x := by
  by_cases eq : x = par
  · subst eq
    unfold type? at hp ⊢
    rw [replaces.swapped]
    cases form : b.form? x with
    | none => rfl
    | some form' => cases form' <;> simp_all [Form.type?, Form.mapChildren_stmt, Form.mapChildren_expr]
  · simp only [type?, replaces.form x eq]

theorem localTypeNode_eq (apart : b.localTypeNode decl ≠ old) :
    t.localTypeNode decl = b.localTypeNode decl := by
  by_cases eq : decl = par
  · subst eq
    unfold localTypeNode stmt? at apart ⊢
    rw [replaces.swapped]
    cases form : b.form? decl with
    | none => rfl
    | some form' =>
      cases form' with
      | stmt stmt =>
        cases stmt <;> simp_all [Form.stmt?, Form.mapChildren_stmt, Stmt.renamed]
      | expr expr => simp [Form.stmt?, Form.mapChildren_expr]
      | type ty => cases ty <;> rfl
  · simp only [localTypeNode, stmt?, replaces.form decl eq]

end Replaces

end Tree

theorem Validation.conclude_ok {w t : Work} {id : NodeId}
    (stood : ∀ node, res = some node → node = id ∨ w.Valid node)
    (done : conclude id res w = .ok ans t) : ans = res ∧ t = w.withTree
      (w.tree.setStage id (if res.isSome then .validated else .failed)) := by
  cases res with
  | none =>
    obtain ⟨u, hs, rfl⟩ := bind_pure_ok.mp done
    exact ⟨rfl, (WorkM.setStage_ok.mp hs).symm⟩
  | some node =>
    obtain ⟨u, mid, hs, done⟩ := bind_ok.mp done
    obtain rfl := WorkM.setStage_ok.mp hs
    by_cases eq : node = id
    · subst eq
      simp only [ne_eq] at done
      obtain ⟨rfl, rfl⟩ := pure_ok.mp done
      exact ⟨rfl, rfl⟩
    · have valid := (stood node rfl).resolve_left eq
      rw [Tree.setStage_self valid] at done
      simp only [ne_eq, eq] at done
      obtain ⟨u, restaged, rfl⟩ := bind_pure_ok.mp done
      exact ⟨rfl, (WorkM.setStage_ok.mp restaged).symm⟩

namespace Outset

variable {o : Outset} {b w t : Work} {id c : NodeId} {done rest : List NodeId}
  {ok childOk : Bool}

theorem Fair.has (fair : o.Fair) (hc : o.Checked w) (hb : o.tree.Below o.root id) :
    w.tree.Has id := by
  rw [Tree.has_iff_lt, hc.size]
  exact fair.linked.index_lt_size hb fair.present

theorem Fair.parent_eq (fair : o.Fair) (hb : o.tree.Below o.root id)
    (mem : c ∈ o.tree.children id) (also : o.tree.Below o.root x)
    (again : c ∈ o.tree.children x) : x = id := by
  have fst := fair.linked.linked id c hb mem
  rw [fair.linked.linked x c also again] at fst
  exact Option.some.inj fst

theorem Marks.setStage (id : NodeId) (stage : Stage) (w : Work) :
    o.Marks id w (w.withTree (w.tree.setStage id stage)) :=
  Marks.modifyFacts id w (fun _ => by rfl) (fun _ => by rfl)

theorem closes_of_stmt?_eq_none (notStmt : o.tree.stmt? id = none) : o.Closes w id :=
  ⟨by simp [notStmt], by simp [notStmt], by simp [notStmt]⟩

theorem plain_of_expr?_eq_none (notExpr : o.tree.expr? id = none) : o.Plain id := by
  simp [Plain, notExpr]

/-- A stage says nothing about what a name stands for. -/
theorem answers_setStage {stage : Stage} (answers : w.Answers o.tree o.denoted id) :
    (w.withTree (w.tree.setStage id stage)).Answers o.tree o.denoted id :=
  answers.keep (w.tree.facts_modify_of Facts.type (fun _ => by rfl) id id)
    (w.tree.facts_modify_of Facts.binding (fun _ => by rfl) id id) fun _ _ means => means

/-! ### The turn of a node -/

namespace Turn

variable (turn : o.Turn id w)

include turn

theorem unbegun : ∀ c ∈ o.tree.children id, ¬o.Begun w c :=
  fun c mem begun => turn.fresh (turn.checked.upward id c turn.below mem begun)

theorem form : w.tree.form? id = o.tree.form? id :=
  turn.checked.form id fun c mem begun => absurd begun (turn.unbegun c mem)

theorem expr? : w.tree.expr? id = o.tree.expr? id := by simp only [Tree.expr?, turn.form]

/-- A node that is to be visited has failed only if resolution gave up on it. -/
theorem mem_left (hx : w.tree.stage id = .failed) : id ∈ o.left := by
  by_contra kept
  exact turn.fresh ⟨kept, .inr (.inl hx)⟩

theorem sunk (left : id ∈ o.left) : o.Sunk w id := ⟨id, left, .root, turn.path⟩

theorem excused (left : id ∈ o.left) : o.Excused w := .inr ⟨id, left, turn.path⟩

/-- What resolution gave up on is not looked into. -/
theorem pass (left : id ∈ o.left) : o.Visited id w false w where
  checked := turn.checked
  passes := .refl id w
  past := .inl (turn.checked.left id left)
  valid := by simp
  fails _ := turn.excused left

theorem begins (fair : o.Fair) (sound : w.tree.stage id ≠ .failed)
    (he : t = w.withTree (w.tree.setStage id .validating)) :
    o.Amid id w [] (o.tree.children id) true t := by
  have kept : id ∉ o.left := fun left => sound (turn.checked.left id left)
  have ho : ¬w.Over id := fun past => turn.fresh ⟨kept, .inr past⟩
  have marks : o.Marks id w t := he ▸ .setStage id .validating w
  have now : t.tree.stage id = .validating := by
    rw [he]
    exact w.tree.stage_setStage_same (fair.has turn.checked turn.below) _
  have notOver : ¬t.Over id := by simp [Work.Over, Work.Valid, now]
  have passes := marks.passes turn.checked.unsent (by simp [now]) (fun _ => ⟨kept, .inl now⟩)
    fun past => absurd past ho
  refine ⟨?_, passes, turn.below, kept, fun ancestor mem => passes.begun _ (turn.path _ mem),
    now, ?_, by simp, by simp, ?_, by simp, by simp⟩
  · apply marks.checked passes.toLater turn.checked kept
    · intro _ x hb mem
      apply turn.path
      rw [fair.linked.ancestors_child hb mem]
      exact List.mem_cons_self
    · simp [now]
    · simp [now]
    · exact fun answers => he ▸ answers_setStage answers
    · exact fun past => absurd past notOver
    · exact fun valid => absurd (.inr valid) notOver
    · exact fun valid => absurd (.inr valid) notOver
  · intro _
    rw [marks.parent]
    exact turn.checked.parent id turn.fresh
  · intro c mem
    have lower := fair.linked.upward id c turn.below mem
    rw [marks.begun_iff (by rintro rfl; omega)]
    exact turn.unbegun c mem

/-- A node that is to be visited is passed over or its visit begins. -/
theorem start (fair : o.Fair) {ans : Option (Option NodeId)}
    (ran : Validation.start id w = .ok ans t) : (ans = some none ∧ t = w ∧ id ∈ o.left) ∨
      (ans = none ∧ o.Amid id w [] (o.tree.children id) true t) := by
  replace ran := rest_ok ran rfl
  by_cases hx : w.tree.stage id = .failed
  · simp only [hx] at ran
    cases ran
    exact .inl ⟨rfl, rfl, turn.mem_left hx⟩
  · simp only [hx] at ran
    have unvalid : (w.tree.stage id).hasReached .validated = false := by
      have unsent := turn.checked.unsent id
      have invalid : w.tree.stage id ≠ .validated := by
        intro valid
        refine turn.fresh ⟨fun left => hx (turn.checked.left id left), .inr (.inr valid)⟩
      cases stage : w.tree.stage id <;> simp_all [Stage.hasReached, Stage.isUpTo, Stage.rank]
    simp only [unvalid] at ran
    obtain ⟨u, hs, rfl⟩ := bind_pure_ok.mp ran
    exact .inr ⟨rfl, turn.begins fair hx (WorkM.setStage_ok.mp hs).symm⟩

end Turn

/-! ### Between the children of a node -/

/-- What stands before an entry in the first part of a list stands before it in the list. -/
theorem mem_of_mem_takeWhile {α : Type} [DecidableEq α] {entry x : α} {fst b t : List α}
    (s : fst <+: b ++ entry :: t) (mem : x ∈ fst.takeWhile (· ≠ entry)) : x ∈ b := by
  induction fst generalizing b with
  | nil => simp at mem
  | cons head tail ih =>
    by_cases here : head = entry
    · simp [here] at mem
    · cases b with
      | nil =>
        obtain ⟨eq, -⟩ := List.cons_prefix_cons.mp s
        exact absurd eq here
      | cons head' b =>
        obtain ⟨rfl, hf⟩ := List.cons_prefix_cons.mp s
        simp only [decide_not, List.takeWhile_cons, here, decide_false, Bool.not_false,
          if_true, List.mem_cons] at mem
        rcases mem with rfl | mem
        · exact List.mem_cons_self
        · exact List.mem_cons_of_mem _ (ih hf (by simpa using mem))

namespace Amid

theorem begun (ha : o.Amid id b done rest ok w) : o.Begun w id :=
  ⟨ha.kept, .inl ha.now⟩

theorem isOpen (ha : o.Amid id b done rest ok w) : ¬w.Over id := by
  simp [Work.Over, Work.Valid, ha.now]

/-- It is the next child's turn. -/
theorem turn (fair : o.Fair) (ha : o.Amid id b done (c :: rest) ok w) : o.Turn c w := by
  have mem : c ∈ o.tree.children id := by simp [ha.children]
  refine ⟨ha.checked, ha.below.child mem, ?_, ha.fresh c (by simp)⟩
  intro ancestor above
  rw [fair.linked.ancestors_child ha.below mem, List.mem_cons] at above
  rcases above with rfl | above
  · exact ha.begun
  · exact ha.path ancestor above

/-- A child has been visited. -/
theorem visit (fair : o.Fair) (ha : o.Amid id b done (c :: rest) ok w)
    (seen : o.Visited c w childOk t) : o.Amid id b (done ++ [c]) rest (ok && childOk) t := by
  have mem : c ∈ o.tree.children id := by simp [ha.children]
  have out : ¬o.tree.Below c id := fair.linked.not_below_child ha.below mem
  have hd := fair.distinct id ha.below
  rw [ha.children, List.nodup_append, List.nodup_cons] at hd
  have later := seen.passes.toLater
  refine ⟨seen.checked, ha.passes.trans (seen.passes.widen seen.past mem), ha.below,
    ha.kept, fun ancestor above => later.begun _ (ha.path _ above), ?_, ?_, ?_, ?_, ?_, ?_, ?_⟩
  · rw [seen.passes.stage id out, ha.now]
  · intro _
    rw [seen.passes.parent id out, ha.parent (by simp)]
  · simp [ha.children]
  · intro x he
    rw [List.mem_append, List.mem_singleton] at he
    rcases he with he | rfl
    · exact later.isOver (ha.past x he)
    · exact seen.past
  · intro x waits begun
    have ne : x ≠ c := by
      rintro rfl
      exact hd.2.1.1 waits
    have apart := fair.linked.not_below_sibling ha.below mem
      (by simp [ha.children, waits] : x ∈ o.tree.children id) ne
    apply ha.fresh x (List.mem_cons_of_mem _ waits)
    unfold Begun Work.Over Work.Valid at begun ⊢
    rwa [seen.passes.stage x apart] at begun
  · intro both x he
    rw [Bool.and_eq_true] at both
    rw [List.mem_append, List.mem_singleton] at he
    rcases he with he | rfl
    · exact later.valid (ha.valid both.1 x he)
    · exact seen.valid both.2
  · intro hx
    rw [Bool.and_eq_false_iff] at hx
    rcases hx with hx | hx
    · exact later.excused (ha.fails hx)
    · exact seen.fails hx

/-- Something is noted about the node. -/
theorem mark (fair : o.Fair) (ha : o.Amid id b done rest ok w)
    (marks : o.Marks id w t) (now : t.tree.stage id = .validating)
    (answers : w.Answers o.tree o.denoted id → t.Answers o.tree o.denoted id) :
    o.Amid id b done rest ok t := by
  have notOver : ¬t.Over id := by simp [Work.Over, Work.Valid, now]
  have passes := marks.passes ha.checked.unsent (by simp [now]) (fun _ => ⟨ha.kept, .inl now⟩)
    fun past => absurd past ha.isOpen
  have later := passes.toLater
  refine ⟨?_, ha.passes.trans passes, ha.below, ha.kept,
    fun ancestor above => later.begun _ (ha.path _ above), now, ?_, ha.children,
    fun x he => later.isOver (ha.past x he), ?_,
    fun good x he => later.valid (ha.valid good x he),
    fun hx => later.excused (ha.fails hx)⟩
  · apply marks.checked later ha.checked ha.kept
    · exact fun _ x hb mem => ha.checked.upward x id hb mem ha.begun
    · simp [now]
    · simp [now]
    · exact answers
    · exact fun past => absurd past notOver
    · exact fun valid => absurd (.inr valid) notOver
    · exact fun valid => absurd (.inr valid) notOver
  · intro waits
    rw [marks.parent, ha.parent waits]
  · intro x waits
    have mem : x ∈ o.tree.children id := by simp [ha.children, waits]
    have lower := fair.linked.upward id x ha.below mem
    rw [marks.begun_iff (by rintro rfl; omega)]
    exact ha.fresh x waits

theorem grown (fair : o.Fair) (ha : o.Amid id b done rest ok w) (hg : w.Grown t) :
    o.Amid id b done rest ok t := by
  refine ha.mark fair (.of_grown id hg) ?_ fun answers => answers.keep ?_ ?_ hg.pool.retains
  · rw [hg.tree, ha.now]
  · rw [hg.tree]
  · rw [hg.tree]

theorem ends (fair : o.Fair) (ha : o.Amid id b done rest ok w) (closes : o.Closes w id)
    (h : ok = true → o.Holds w id)
    (hp : ok = true → ∀ x, o.tree.Below o.root x → id ∈ o.tree.children x →
      id ∈ w.tree.children x → o.Plain id) (he : t = w.withTree
      (w.tree.setStage id (if ok then .validated else .failed))) :
    o.Visited id b ok t ∧ o.Later w t := by
  have marks : o.Marks id w t := he ▸ .setStage id _ w
  have now : t.tree.stage id = if ok then .validated else .failed := by
    rw [he]
    exact w.tree.stage_setStage_same (fair.has ha.checked ha.below) _
  have good : t.Valid id ↔ ok = true := by
    unfold Work.Valid
    rw [now]
    cases ok <;> simp
  have past : t.Over id := by
    unfold Work.Over
    rw [good, now]
    cases ok <;> simp
  have unsent : t.tree.stage id ≠ .emitted := by
    rw [now]
    cases ok <;> simp
  have passes := marks.passes ha.checked.unsent unsent (fun _ => ⟨ha.kept, .inr past⟩)
    fun isOver => absurd isOver ha.isOpen
  have later := passes.toLater
  have fails : ok = false → o.Excused t := fun bad => later.excused (ha.fails bad)
  refine ⟨⟨?_, ha.passes.trans passes, past, good.mpr, fails⟩, later⟩
  apply marks.checked later ha.checked ha.kept
  · exact fun _ x hb mem => ha.checked.upward x id hb mem ha.begun
  · exact unsent
  · cases ok <;> simp_all
  · exact fun answers => he ▸ answers_setStage answers
  · exact fun _ => later.closes closes
  · intro valid
    apply later.holds _ _ (h (good.mp valid))
    · rw [he]
      exact w.tree.facts_modify_of Facts.type (fun _ => by rfl) id id
    · rw [he]
      exact w.tree.facts_modify_of Facts.constant (fun _ => by rfl) id id
  · intro valid x hb mem here
    rw [marks.children] at here
    exact hp (good.mp valid) x hb mem here

theorem concludes (fair : o.Fair) (ha : o.Amid id b done rest ok w)
    (eq : res.isSome = ok) (stood : ∀ node, res = some node → node = id ∨ w.Valid node)
    (ran : conclude id res w = .ok ans t) (closes : o.Closes w id) (h : ok = true → o.Holds w id)
    (hp : ok = true → ∀ x, o.tree.Below o.root x → id ∈ o.tree.children x →
      id ∈ w.tree.children x → o.Plain id) : ans = res ∧ o.Visited id b ok t ∧ o.Later w t := by
  obtain ⟨rfl, he⟩ := conclude_ok stood ran
  rw [eq] at he
  exact ⟨rfl, ha.ends fair closes h hp he⟩

/-- The form of a node stays as long as only types among its children were visited. -/
theorem form (ha : o.Amid id b done rest ok w)
    (types : ∀ c ∈ done, (o.tree.type? c).isSome) : w.tree.form? id = o.tree.form? id := by
  refine ha.checked.form id fun c mem begun => ?_
  rw [ha.children, List.mem_append] at mem
  rcases mem with he | waits
  · exact types c he
  · exact absurd begun (ha.fresh c waits)

/-- What the node's parentheses hold takes its place. -/
theorem replace (fair : o.Fair) (ha : o.Amid id b done [] ok w) {par new : NodeId}
    (notType : o.tree.type? id = none) (up : o.tree.parent? id = some par)
    (hosted : o.tree.type? par = none) (under : o.tree.Below id new) (ne : id ≠ new)
    (validNew : w.Valid new) (hp : o.Plain new) (standing : id ∈ w.tree.children par)
    (he : t = w.withTree (w.tree.replaceChild par id new).2) : o.Amid id b done [] ok t := by
  have replaces : w.tree.Replaces t.tree par id new := by
    rw [he]
    exact w.tree.replaces_replaceChild ne standing
  obtain ⟨belowParent, mem, -⟩ := fair.linked.parent ha.below up
  have stage := replaces.stage
  have facts := replaces.facts
  have samePool : t.pool = w.pool := by rw [he]; rfl
  have past : ∀ x, t.Over x ↔ w.Over x := by simp [Work.Over, Work.Valid, stage]
  have valid : ∀ x, t.Valid x ↔ w.Valid x := by simp [Work.Valid, stage]
  have begun : ∀ x, o.Begun t x ↔ o.Begun w x := by simp [Begun, stage, past]
  have begunNew : o.Begun w new := by
    refine ⟨fun left => ?_, .inr (.inr validNew)⟩
    have hx := ha.checked.left new left
    simp [Work.Valid, hx] at validNew
  have unsent : ∀ x, t.tree.stage x ≠ .emitted := by
    intro x
    rw [stage]
    exact ha.checked.unsent x
  have passes : o.Passes id w t := by
    refine ⟨⟨fun x _ => stage x, fun x => (begun x).mpr, fun x _ => by rw [facts],
      fun x _ => by rw [facts], fun x => by rw [facts], fun x some => by rwa [facts],
      samePool ▸ .refl _, fun decl => ?_⟩, fun x _ => stage x, fun x out => ?_,
      fun x _ now => by rwa [stage] at now⟩
    · rw [localType_isSome ha.checked.unsent, localType_isSome unsent]
      rintro ⟨isValid, hn⟩
      have apart : w.tree.localTypeNode decl ≠ id := by
        intro eq
        rw [eq, ha.now] at isValid
        simp at isValid
      rw [replaces.localTypeNode_eq apart, stage, facts]
      exact ⟨isValid, hn⟩
    · exact replaces.parents x (by rintro rfl; exact out .root) (by rintro rfl; exact out under)
  have later := passes.toLater
  have hc : o.Checked t := by
    refine ⟨replaces.size.trans ha.checked.size, ?_, ?_, ?_, ?_, unsent, ?_, ?_, ?_, ?_, ?_, ?_, ?_⟩
    · intro x types
      have apart : x ≠ par := by
        rintro rfl
        have ht := types id mem ((begun id).mpr ha.begun)
        simp [notType] at ht
      rw [replaces.form x apart]
      exact ha.checked.form x fun c hi isBegun =>
        types c hi ((begun c).mpr isBegun)
    · intro x
      rw [replaces.type?_eq (by rw [ha.checked.types, hosted]), ha.checked.types]
    · intro x unbegun
      rw [begun] at unbegun
      rw [replaces.parents x (by rintro rfl; exact unbegun ha.begun)
        (by rintro rfl; exact unbegun begunNew)]
      exact ha.checked.parent x unbegun
    · intro x c hb hi isBegun
      rw [begun] at isBegun ⊢
      exact ha.checked.upward x c hb hi isBegun
    · intro x left
      rw [stage]
      exact ha.checked.left x left
    · intro x hx
      rw [stage] at hx
      exact (ha.checked.failed x hx).imp_right later.excused
    · intro x hb out complete
      exact (ha.checked.answers x hb out complete).keep (by rw [facts]) (by rw [facts])
        fun _ _ means => samePool ▸ means
    · intro x hb out isOver
      exact later.closes (ha.checked.closed x hb out ((past x).mp isOver))
    · intro x hb isValid
      exact later.holds (by rw [facts]) (by rw [facts]) (ha.checked.valid x hb ((valid x).mp isValid))
    · intro x c hi
      have hea : c ∈ w.tree.children x ∨ c = new := by
        by_cases eq : x = par
        · subst eq
          rw [replaces.children_parent, List.mem_map] at hi
          obtain ⟨old, hi, rfl⟩ := hi
          split
          · exact .inr rfl
          · exact .inl hi
        · rw [replaces.children_other eq] at hi
          exact .inl hi
      rcases hea with hea | rfl
      · exact (ha.checked.stands x c hea).imp_right fun hs =>
          ⟨(valid c).mpr hs.1, hs.2⟩
      · exact .inr ⟨(valid c).mpr validNew, hp⟩
    · intro x c hb hi isValid here
      by_cases eq : x = par
      · subst eq
        rw [replaces.children_parent, List.mem_map] at here
        obtain ⟨old, here, rfl⟩ := here
        by_cases here' : old = id
        · rw [if_pos here']
          exact hp
        · rw [if_neg here'] at isValid hi ⊢
          exact ha.checked.placed x old hb hi ((valid old).mp isValid) here
      · rw [replaces.children_other eq] at here
        exact ha.checked.placed x c hb hi ((valid c).mp isValid) here
  refine ⟨hc, ha.passes.trans passes, ha.below, ha.kept,
    fun ancestor above => later.begun _ (ha.path _ above), (stage id).trans ha.now, by simp,
    ha.children, fun x hea => later.isOver (ha.past x hea), by simp,
    fun good x hea => later.valid (ha.valid good x hea),
    fun hx => later.excused (ha.fails hx)⟩

/-- A declaration that was visited before is known. -/
theorem declared (fair : o.Fair) (ha : o.Amid id b done rest ok w) {name : String}
    (he : decl ∈ done) (dcl : o.tree.declaresLocal name decl = true) : o.Declared w decl := by
  have hb : o.tree.Below o.root decl := ha.below.child (by simp [ha.children, he])
  obtain ⟨stmt, hs, hn⟩ : ∃ stmt, o.tree.stmt? decl = some stmt ∧
      stmt.declaredName? = some name := by
    simpa [Tree.declaresLocal, Option.bind_eq_some_iff] using dcl
  have kept : decl ∉ o.left := by
    intro left
    have ht := fair.types decl left
    simp [Tree.type?, o.tree.form?_of_stmt hs, Form.type?] at ht
  exact (ha.checked.closed decl hb kept (ha.past decl he)).declares stmt hs (by simp [hn])

/-- What a name under the next child refers to outside of it is known. A method has to know its
parameters first. -/
theorem scope (fair : o.Fair) (ha : o.Amid id b done (c :: rest) ok w)
    (sc : o.Scope b id) (ps : ∀ name ps rets body,
      o.tree.stmt? id = some (.method name ps rets body) →
      ∀ param ∈ ps, o.Declared w param.type) : o.Scope w c := by
  intro use name decl hb isName hf hv
  have mem : c ∈ o.tree.children id := by simp [ha.children]
  rw [fair.linked.findLocal_child ha.below mem] at hv
  have outer : o.tree.findLocal id name = some decl → o.Declared w decl :=
    ha.passes.scope sc use name decl ((Tree.Below.root.child mem).trans hb) isName hf
  have seen : ∀ ids, ids <+: o.tree.children id →
      o.tree.declaredBefore name c ids = some decl → o.Declared w decl := by
    intro ids s dcl
    obtain ⟨he, dcl⟩ := Tree.declaredBefore_eq_some dcl
    rw [ha.children] at s
    exact ha.declared fair (mem_of_mem_takeWhile s he) dcl
  cases hs : o.tree.stmt? id with
  | none =>
    rw [hs] at hv
    exact outer hv
  | some stmt =>
    have children := o.tree.children_of_stmt hs
    rw [hs] at hv
    cases stmt with
    | method name' params' rets body =>
      obtain ⟨param, isParam, rfl⟩ := Option.map_eq_some_iff.mp hv
      exact ps _ _ _ _ hs param (List.mem_reverse.mp (List.mem_of_find?_eq_some isParam))
    | block stmts =>
      rcases Option.or_eq_some_iff.mp hv with i | ⟨-, above⟩
      · exact seen stmts (by simp [children, Stmt.children]) i
      · exact outer above
    | ifElse conds thenBranch els =>
      rcases Option.or_eq_some_iff.mp hv with i | ⟨-, above⟩
      · dsimp only [Tree.declaredIn] at i
        split at i
        · simp at i
        · exact seen conds (by simp [children, Stmt.children]) i
      · exact outer above
    | whileLoop conds body testLast =>
      rcases Option.or_eq_some_iff.mp hv with i | ⟨-, above⟩
      · exact seen conds (by simp [children, Stmt.children]) i
      · exact outer above
    | forLoop init conds updates body =>
      rcases Option.or_eq_some_iff.mp hv with i | ⟨-, above⟩
      · rcases Option.or_eq_some_iff.mp i with i | ⟨-, i⟩
        · obtain ⟨he, dcl⟩ := Tree.declaredBefore_eq_some i
          by_cases fst : c ∈ init
          · left
            left
            exact ⟨id, init, conds, updates, body, ha.below, hs, c, use, name, decl, fst,
              hb, isName, hf, List.takeWhile_subset _ he⟩
          · have s : init ++ conds <+: done ++ c :: rest := by
              simp [← ha.children, children, Stmt.children]
            have apart : ∀ x ∈ init, decide (x ≠ c) = true := by
              intro x here
              rw [decide_eq_true_eq]
              rintro rfl
              exact fst here
            apply ha.declared fair (mem_of_mem_takeWhile s _) dcl
            rw [List.takeWhile_append_of_pos apart]
            exact List.mem_append_right _ he
        · exact seen init (by simp [children, Stmt.children]) i
      · exact outer above
    | _ => exact outer hv

end Amid

end Outset

end TreeCompiler
