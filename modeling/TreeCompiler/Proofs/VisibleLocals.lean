import TreeCompiler.Proofs.UnitOutcomes

/-!
# Visible locals

The order in which the language looks through the declarations around a name: the innermost
construct first, and within one the latest declaration first. A name is looked up in just this
order, but for the first part of a `for` loop, where the conditions of the loop come before
everything else.
-/

namespace TreeCompiler

variable {order : List (String × NodeId)} {decl : NodeId}

namespace Stmt

/-- Whether a statement makes no declaration visible to its children. -/
def showsNothing : Stmt → Bool
  | .method .. | .block _ | .ifElse .. | .whileLoop .. | .forLoop .. => false
  | _ => true

/-- The nodes that a statement lets a child see, in the order in which the language looks through
them. -/
inductive Shows : Stmt → NodeId → List NodeId → Prop
  | entry {b t : List NodeId} {c : NodeId} :
    Shows (.block (b ++ c :: t)) c b.reverse
  | ifCond {b t : List NodeId} {c thenBranch : NodeId} {elseBranch : Option NodeId} :
    Shows (.ifElse (b ++ c :: t) thenBranch elseBranch) c b.reverse
  | thenBranch {conds : List NodeId} {c : NodeId} {elseBranch : Option NodeId} :
    Shows (.ifElse conds c elseBranch) c conds.reverse
  | elseBranch {conds : List NodeId} {thenBranch c : NodeId} :
    Shows (.ifElse conds thenBranch (some c)) c []
  | whileCond {b t : List NodeId} {c body : NodeId} {testLast : Bool} :
    Shows (.whileLoop (b ++ c :: t) body testLast) c b.reverse
  | whileBody {conds : List NodeId} {c : NodeId} {testLast : Bool} :
    Shows (.whileLoop conds c testLast) c conds.reverse
  | forInit {b t conds updates : List NodeId} {c body : NodeId} :
    Shows (.forLoop (b ++ c :: t) conds updates body) c b.reverse
  | forCond {init b t updates : List NodeId} {c body : NodeId} :
    Shows (.forLoop init (b ++ c :: t) updates body) c (b.reverse ++ init.reverse)
  | forUpdate {init conds updates : List NodeId} {c body : NodeId} (mem : c ∈ updates) :
    Shows (.forLoop init conds updates body) c (conds.reverse ++ init.reverse)
  | forBody {init conds updates : List NodeId} {c : NodeId} :
    Shows (.forLoop init conds updates c) c (conds.reverse ++ init.reverse)
  | nothing {stmt : Stmt} {c : NodeId} (hp : stmt.showsNothing = true)
    (mem : c ∈ stmt.children) : Shows stmt c []

namespace Shows

variable {stmt : Stmt} {c : NodeId} {shown : List NodeId}

theorem mem_children (shows : stmt.Shows c shown) : c ∈ stmt.children := by
  cases shows with
  | nothing _ mem => exact mem
  | forUpdate mem => simp [children, mem]
  | _ => simp [children]

theorem subset_children (shows : stmt.Shows c shown) : ∀ node ∈ shown, node ∈ stmt.children := by
  cases shows <;> simp only [children] <;> grind

theorem isMethod (shows : stmt.Shows c shown) : stmt.isMethod = false := by
  cases shows with
  | nothing hp => cases stmt <;> simp_all [showsNothing, Stmt.isMethod]
  | _ => rfl

end Shows

theorem exists_shows {stmt : Stmt} (hi : stmt.isMethod = false) {c : NodeId}
    (mem : c ∈ stmt.children) : ∃ shown, stmt.Shows c shown := by
  cases stmt with
  | method => simp [isMethod] at hi
  | block stmts =>
    obtain ⟨b, t, rfl⟩ := List.append_of_mem mem
    exact ⟨_, .entry⟩
  | ifElse conds thenBranch els =>
    simp only [children, List.mem_append, List.mem_cons, Option.mem_toList] at mem
    rcases mem with mem | rfl | rfl
    · obtain ⟨b, t, rfl⟩ := List.append_of_mem mem
      exact ⟨_, .ifCond⟩
    · exact ⟨_, .thenBranch⟩
    · exact ⟨_, .elseBranch⟩
  | whileLoop conds body testLast =>
    simp only [children, List.mem_append, List.mem_singleton] at mem
    rcases mem with mem | rfl
    · obtain ⟨b, t, rfl⟩ := List.append_of_mem mem
      exact ⟨_, .whileCond⟩
    · exact ⟨_, .whileBody⟩
  | forLoop init conds updates body =>
    simp only [children, List.mem_append, List.mem_singleton] at mem
    rcases mem with ((mem | mem) | mem) | rfl
    · obtain ⟨b, t, rfl⟩ := List.append_of_mem mem
      exact ⟨_, .forInit⟩
    · obtain ⟨b, t, rfl⟩ := List.append_of_mem mem
      exact ⟨_, .forCond⟩
    · exact ⟨_, .forUpdate mem⟩
    · exact ⟨_, .forBody⟩
  | _ => exact ⟨_, .nothing rfl mem⟩

theorem takeWhile_ne_append {b t : List NodeId} {c : NodeId} (fresh : c ∉ b) :
    (b ++ c :: t).takeWhile (· ≠ c) = b := by
  rw [List.takeWhile_append_of_pos (by simpa using fun node mem => ne_of_mem_of_not_mem mem fresh)]
  simp

theorem takeWhile_ne_eq_self {ids : List NodeId} {c : NodeId} (outside : c ∉ ids) :
    ids.takeWhile (· ≠ c) = ids := by
  simpa using fun node mem => ne_of_mem_of_not_mem mem outside

/-- What a statement lets a child see, computed from the lists in which the child may stand. -/
def shownTo (c : NodeId) : Stmt → List NodeId
  | .block stmts => (stmts.takeWhile (· ≠ c)).reverse
  | .ifElse conds _ els =>
    if els = some c then [] else (conds.takeWhile (· ≠ c)).reverse
  | .whileLoop conds _ _ => (conds.takeWhile (· ≠ c)).reverse
  | .forLoop init conds _ _ =>
    if c ∈ init then (init.takeWhile (· ≠ c)).reverse
    else (conds.takeWhile (· ≠ c)).reverse ++ init.reverse
  | _ => []

/-- Where no child stands twice, there is one answer to what it is shown. -/
theorem Shows.eq_shownTo {stmt : Stmt} {c : NodeId} {shown : List NodeId}
    (hd : stmt.children.Nodup) (shows : stmt.Shows c shown) : shown = stmt.shownTo c := by
  cases shows with
  | @entry b t =>
    have fresh : c ∉ b := by grind [children]
    rw [shownTo, takeWhile_ne_append fresh]
  | @ifCond b t _ _ els =>
    have fresh : c ∉ b ∧ els ≠ some c := by
      simp only [children] at hd
      grind
    rw [shownTo, if_neg fresh.2, takeWhile_ne_append fresh.1]
  | @thenBranch conds _ els =>
    have fresh : c ∉ conds ∧ els ≠ some c := by grind [children]
    rw [shownTo, if_neg fresh.2, takeWhile_ne_eq_self fresh.1]
  | elseBranch => rw [shownTo, if_pos rfl]
  | @whileCond b t =>
    have fresh : c ∉ b := by grind [children]
    rw [shownTo, takeWhile_ne_append fresh]
  | @whileBody conds =>
    have fresh : c ∉ conds := by grind [children]
    rw [shownTo, takeWhile_ne_eq_self fresh]
  | @forInit b t =>
    have fresh : c ∉ b := by grind [children]
    rw [shownTo, if_pos (by simp), takeWhile_ne_append fresh]
  | @forCond init b t =>
    have fresh : c ∉ b ∧ c ∉ init := by grind [children]
    rw [shownTo, if_neg fresh.2, takeWhile_ne_append fresh.1]
  | @forUpdate init conds updates _ _ mem =>
    have fresh : c ∉ init ∧ c ∉ conds := by grind [children]
    rw [shownTo, if_neg fresh.1, takeWhile_ne_eq_self fresh.2]
  | @forBody init conds =>
    have fresh : c ∉ init ∧ c ∉ conds := by grind [children]
    rw [shownTo, if_neg fresh.1, takeWhile_ne_eq_self fresh.2]
  | nothing hp => cases stmt <;> simp_all [showsNothing, shownTo]

end Stmt

namespace Tree

variable {tree : Tree} {root id c : NodeId} {name : String}

/-- The declarations among nodes, each with its name. -/
def declared (tree : Tree) (ids : List NodeId) : List (String × NodeId) :=
  ids.filterMap fun id => ((tree.stmt? id).bind Stmt.declaredName?).map fun name => (name, id)

/-- The declarations that are visible at a node under the root, in the order in which the language
looks through them. The parameters of the enclosing method come last, and nothing outside of it is
visible. -/
inductive Visible (tree : Tree) (root : NodeId) : NodeId → List (String × NodeId) → Prop
  | root : Visible tree root root []
  | parameter {id c body : NodeId} {name : String} {ps : List Param} {rets : List NodeId}
    (hb : tree.Below root id) (hf : tree.stmt? id = some (.method name ps rets body))
    (mem : c ∈ tree.children id) :
    Visible tree root c (ps.reverse.map fun param => (param.name, param.type))
  | shown {id c : NodeId} {stmt : Stmt} {nodes : List NodeId} {outer : List (String × NodeId)}
    (above : Visible tree root id outer) (hf : tree.stmt? id = some stmt)
    (shows : stmt.Shows c nodes) : Visible tree root c (tree.declared nodes ++ outer)
  | operand {id c : NodeId} {outer : List (String × NodeId)} (above : Visible tree root id outer)
    (hf : tree.stmt? id = none) (mem : c ∈ tree.children id) :
    Visible tree root c outer

/-- A name that stands in the first part of a `for` loop, with no declaration of it in between,
while a condition of the loop declares it. -/
inductive PeeksAhead (tree : Tree) (root : NodeId) (name : String) : NodeId → Prop
  | init {loop c body cond : NodeId} {init conds updates : List NodeId}
    (hb : tree.Below root loop) (hf : tree.stmt? loop = some (.forLoop init conds updates body))
    (mem : c ∈ init) (tested : cond ∈ conds) (dcl : tree.declaresLocal name cond = true) :
    PeeksAhead tree root name c
  | shown {id c : NodeId} {stmt : Stmt} {nodes : List NodeId}
    (above : PeeksAhead tree root name id) (hf : tree.stmt? id = some stmt)
    (shows : stmt.Shows c nodes) (silent : ∀ node ∈ nodes, tree.declaresLocal name node = false) :
    PeeksAhead tree root name c
  | operand {id c : NodeId} (above : PeeksAhead tree root name id) (hf : tree.stmt? id = none)
    (mem : c ∈ tree.children id) : PeeksAhead tree root name c

/-! ### Looking through the declarations of one construct -/

theorem lookup_declared (ids : List NodeId) :
    (tree.declared ids).lookup name = ids.find? (tree.declaresLocal name) := by
  induction ids with
  | nil => rfl
  | cons id rest ih =>
    unfold declared at ih ⊢
    rw [List.filterMap_cons, List.find?_cons, ← ih]
    unfold declaresLocal
    cases (tree.stmt? id).bind Stmt.declaredName? with
    | none => rfl
    | some x =>
      rw [Option.map_some, List.lookup_cons]
      by_cases eq : name = x
      · simp [eq]
      · have ne : (name == x) = false := by simpa using eq
        have differs' : (some x == some name) = false := by simpa using Ne.symm eq
        rw [ne, differs']

theorem mem_of_lookup_eq_some (hf : order.lookup name = some decl) : (name, decl) ∈ order := by
  obtain ⟨b, t, rfl, -⟩ := List.lookup_eq_some_iff.mp hf
  simp

theorem mem_declared {ids : List NodeId} (mem : (name, decl) ∈ tree.declared ids) : decl ∈ ids := by
  obtain ⟨id, here, hf⟩ := List.mem_filterMap.mp mem
  obtain ⟨_, -, eq⟩ := Option.map_eq_some_iff.mp hf
  exact (Prod.mk.inj eq).2 ▸ here

theorem lookup_parameters (ps : List Param) :
    (ps.map fun param => (param.name, param.type)).lookup name =
      (ps.find? (·.name == name)).map Param.type := by
  induction ps with
  | nil => rfl
  | cons param rest ih =>
    rw [List.map_cons, List.lookup_cons, List.find?_cons]
    by_cases eq : name = param.name
    · simp [eq]
    · have ne : (name == param.name) = false := by simpa using eq
      have differs' : (param.name == name) = false := by simpa using Ne.symm eq
      rw [ne, differs']
      exact ih

/-- The conditions of a `for` loop of which the child is in the first part. -/
def conditionsAhead (c : NodeId) : Stmt → List NodeId
  | .forLoop init conds _ _ => if c ∈ init then conds else []
  | _ => []

/-- A statement is looked through in the order of the language, but for the conditions of a `for`
loop, which come first also for the nodes before them. -/
theorem declaredIn_eq {stmt : Stmt} (hd : stmt.children.Nodup) : tree.declaredIn name c stmt =
      ((conditionsAhead c stmt).reverse.find? (tree.declaresLocal name)).or
        ((stmt.shownTo c).find? (tree.declaresLocal name)) := by
  cases stmt with
  | ifElse conds thenBranch els =>
    by_cases x : els = some c <;>
      simp [declaredIn, Stmt.shownTo, x, conditionsAhead, declaredBefore]
  | forLoop init conds updates body =>
    unfold declaredIn Stmt.shownTo conditionsAhead
    by_cases fst : c ∈ init
    · have fresh : c ∉ conds := by grind [Stmt.children]
      simp only [declaredBefore, fst, if_true]
      rw [Stmt.takeWhile_ne_eq_self fresh]
    · simp only [declaredBefore, fst]
      rw [Stmt.takeWhile_ne_eq_self fst]
      simp
  | _ => simp [declaredIn, declaredBefore, Stmt.shownTo, conditionsAhead]

/-! ### Looking through what is visible -/

theorem Visible.isBelow (hv : tree.Visible root id order) : tree.Below root id := by
  induction hv with
  | root => exact .root
  | parameter hb hf mem => exact hb.child mem
  | shown _ hf shows ih =>
    exact ih.child (by rw [tree.children_of_stmt hf]; exact shows.mem_children)
  | operand _ hf mem ih => exact ih.child mem

theorem PeeksAhead.isBelow (peeks : tree.PeeksAhead root name id) : tree.Below root id := by
  induction peeks with
  | init hb hf mem =>
    exact hb.child (by rw [tree.children_of_stmt hf]; simp [Stmt.children, mem])
  | shown _ hf shows _ ih =>
    exact ih.child (by rw [tree.children_of_stmt hf]; exact shows.mem_children)
  | operand _ hf mem ih => exact ih.child mem

/-- At every node under the root something is visible, if only nothing. -/
theorem Below.exists_visible (hb : tree.Below root id) : ∃ order, tree.Visible root id order := by
  induction hb with
  | root => exact ⟨_, .root⟩
  | @child id c hb mem ih =>
    obtain ⟨outer, above⟩ := ih
    cases hf : tree.stmt? id with
    | none => exact ⟨_, .operand above hf mem⟩
    | some stmt =>
      by_cases hi : stmt.isMethod = false
      · rw [tree.children_of_stmt hf] at mem
        obtain ⟨shown, shows⟩ := Stmt.exists_shows hi mem
        exact ⟨_, .shown above hf shows⟩
      · cases stmt with
        | method name ps rets body => exact ⟨_, .parameter hb hf mem⟩
        | _ => simp [Stmt.isMethod] at hi

/-- A linked tree in which no node stands in two places. -/
structure IsPlaced (tree : Tree) (root : NodeId) : Prop extends tree.IsLinked root where
  distinct : ∀ id, tree.Below root id → (tree.children id).Nodup

namespace IsPlaced

variable (placed : tree.IsPlaced root)

include placed

theorem distinct_stmt {stmt : Stmt} (hb : tree.Below root id) (hf : tree.stmt? id = some stmt) :
    stmt.children.Nodup := by
  rw [← tree.children_of_stmt hf]
  exact placed.distinct id hb

theorem parent_unique {x : NodeId} (hb : tree.Below root id) (mem : c ∈ tree.children id)
    (above : tree.Below root x) (also : c ∈ tree.children x) : id = x :=
  Option.some.inj ((placed.linked id c hb mem).symm.trans (placed.linked x c above also))

theorem not_root (hb : tree.Below root id) (mem : root ∈ tree.children id) : False := by
  have up := placed.linked id root hb mem
  rw [placed.top] at up
  simp at up

/-- The language looks through declarations in one order only. -/
theorem visible_unique {x : List (String × NodeId)} (hv : tree.Visible root id order)
    (also : tree.Visible root id x) : order = x := by
  induction hv generalizing x with
  | root =>
    cases also with
    | root => rfl
    | parameter hb hf mem => exact (placed.not_root hb mem).elim
    | shown above hf shows =>
      refine (placed.not_root above.isBelow ?_).elim
      rw [tree.children_of_stmt hf]
      exact shows.mem_children
    | operand above hf mem => exact (placed.not_root above.isBelow mem).elim
  | parameter hb hf mem =>
    cases also with
    | root => exact (placed.not_root hb mem).elim
    | parameter below' found' member' =>
      obtain rfl := placed.parent_unique hb mem below' member'
      simp_all
    | shown above found' shows =>
      obtain rfl := placed.parent_unique hb mem above.isBelow
        (by rw [tree.children_of_stmt found']; exact shows.mem_children)
      rw [hf] at found'
      cases found'
      have hi := shows.isMethod
      simp [Stmt.isMethod] at hi
    | operand above found' member' =>
      obtain rfl := placed.parent_unique hb mem above.isBelow member'
      simp [hf] at found'
  | shown above hf shows ih =>
    have mem := shows.mem_children
    rw [← tree.children_of_stmt hf] at mem
    cases also with
    | root => exact (placed.not_root above.isBelow mem).elim
    | parameter hb found' member' =>
      obtain rfl := placed.parent_unique above.isBelow mem hb member'
      rw [hf] at found'
      cases found'
      have hi := shows.isMethod
      simp [Stmt.isMethod] at hi
    | shown above' found' shows' =>
      obtain rfl := placed.parent_unique above.isBelow mem above'.isBelow
        (by rw [tree.children_of_stmt found']; exact shows'.mem_children)
      rw [hf] at found'
      cases found'
      have hd := placed.distinct_stmt above.isBelow hf
      rw [ih above', shows.eq_shownTo hd, shows'.eq_shownTo hd]
    | operand above' found' member' =>
      obtain rfl := placed.parent_unique above.isBelow mem above'.isBelow member'
      simp [hf] at found'
  | operand above hf mem ih =>
    cases also with
    | root => exact (placed.not_root above.isBelow mem).elim
    | parameter hb found' member' =>
      obtain rfl := placed.parent_unique above.isBelow mem hb member'
      simp [hf] at found'
    | shown above' found' shows' =>
      obtain rfl := placed.parent_unique above.isBelow mem above'.isBelow
        (by rw [tree.children_of_stmt found']; exact shows'.mem_children)
      simp [hf] at found'
    | operand above' found' member' =>
      obtain rfl := placed.parent_unique above.isBelow mem above'.isBelow member'
      exact ih above'

/-- A name at a child is looked for ahead, then in what the child is shown, then around the
statement. -/
theorem findLocal_shown {stmt : Stmt} {nodes : List NodeId} (hb : tree.Below root id)
    (hf : tree.stmt? id = some stmt) (shows : stmt.Shows c nodes) :
    tree.findLocal c name = ((conditionsAhead c stmt).reverse.find? (tree.declaresLocal name)).or
        ((nodes.find? (tree.declaresLocal name)).or (tree.findLocal id name)) := by
  have mem : c ∈ tree.children id := by
    rw [tree.children_of_stmt hf]
    exact shows.mem_children
  have hd := placed.distinct_stmt hb hf
  have split : tree.findLocal c name =
      (tree.declaredIn name c stmt).or (tree.findLocal id name) := by
    rw [placed.findLocal_child hb mem, hf]
    have hi := shows.isMethod
    cases stmt <;> first | rfl | simp [Stmt.isMethod] at hi
  rw [split, declaredIn_eq hd, ← shows.eq_shownTo hd, Option.or_assoc]

/-- A name that does not stand ahead of a condition that declares it is looked up in the order of
the language. -/
theorem findLocal_eq_lookup (hv : tree.Visible root id order)
    (behind : ¬tree.PeeksAhead root name id) : tree.findLocal id name = order.lookup name := by
  induction hv with
  | root => rw [placed.findLocal_root, List.lookup_nil]
  | @parameter id c body m ps rets hb hf mem =>
    rw [placed.findLocal_child hb mem, hf, lookup_parameters]
    rfl
  | @shown id c stmt nodes outer above hf shows ih =>
    rw [placed.findLocal_shown above.isBelow hf shows, List.lookup_append, lookup_declared]
    have none : (conditionsAhead c stmt).reverse.find? (tree.declaresLocal name) = none := by
      rw [List.find?_eq_none]
      intro cond ahead dcl
      cases stmt with
      | forLoop init conds updates body =>
        obtain ⟨fst, tested⟩ : c ∈ init ∧ cond ∈ conds := by
          simpa [conditionsAhead] using ahead
        exact behind (.init above.isBelow hf fst tested dcl)
      | _ => simp [conditionsAhead] at ahead
    rw [none]
    cases here : nodes.find? (tree.declaresLocal name) with
    | some decl => rfl
    | none =>
      refine ih fun peeks => behind (.shown peeks hf shows ?_)
      simpa using here
  | @operand id c outer above hf mem ih =>
    rw [placed.findLocal_child above.isBelow mem, hf]
    exact ih fun peeks => behind (.operand peeks hf mem)

/-- What is visible at a node stands among the children of the nodes around it. -/
theorem parent_of_visible (hv : tree.Visible root id order) (mem : (name, decl) ∈ order) :
    ∃ own ∈ tree.ancestors id, tree.parent? decl = some own := by
  induction hv with
  | root => simp at mem
  | @parameter id c body m ps rets hb hf hi =>
    refine ⟨id, by simp [placed.ancestors_child hb hi], placed.linked id decl hb ?_⟩
    obtain ⟨param, here, eq⟩ := List.mem_map.mp mem
    obtain rfl := (Prod.mk.inj eq).2
    rw [tree.children_of_stmt hf]
    simp only [Stmt.children, List.append_assoc, List.mem_append, List.mem_map]
    exact .inl ⟨param, List.mem_reverse.mp here, rfl⟩
  | @shown id c stmt nodes outer above hf shows ih =>
    have hi : c ∈ tree.children id := by
      rw [tree.children_of_stmt hf]
      exact shows.mem_children
    rw [placed.ancestors_child above.isBelow hi]
    rcases List.mem_append.mp mem with here | mem
    · refine ⟨id, by simp, placed.linked id decl above.isBelow ?_⟩
      rw [tree.children_of_stmt hf]
      exact shows.subset_children decl (mem_declared here)
    · obtain ⟨own, around, up⟩ := ih mem
      exact ⟨own, List.mem_cons_of_mem _ around, up⟩
  | @operand id c outer above hf hi ih =>
    obtain ⟨own, around, up⟩ := ih mem
    rw [placed.ancestors_child above.isBelow hi]
    exact ⟨own, List.mem_cons_of_mem _ around, up⟩

/-- A name in the first part of a `for` loop refers to the latest condition of the loop that
declares it, which the language does not let it see. -/
theorem findLocal_ahead {loop body tested : NodeId} {init conds updates : List NodeId}
    (hb : tree.Below root loop) (hf : tree.stmt? loop = some (.forLoop init conds updates body))
    (mem : c ∈ init) (test : tested ∈ conds) (dcl : tree.declaresLocal name tested = true) :
    ∃ cond ∈ conds, tree.findLocal c name = some cond ∧
      ∀ order, tree.Visible root c order → order.lookup name ≠ some cond := by
  obtain ⟨b, t, rfl⟩ := List.append_of_mem mem
  have shows : (Stmt.forLoop (b ++ c :: t) conds updates body).Shows c b.reverse :=
    .forInit
  have some : (conds.reverse.find? (tree.declaresLocal name)).isSome :=
    List.find?_isSome.mpr ⟨tested, by simpa using test, dcl⟩
  obtain ⟨cond, latest⟩ := Option.isSome_iff_exists.mp some
  have isCond : cond ∈ conds := by simpa using List.mem_of_find?_eq_some latest
  refine ⟨cond, isCond, ?_, ?_⟩
  · rw [placed.findLocal_shown hb hf shows]
    simp [conditionsAhead, latest]
  · intro order hv seen
    obtain ⟨outer, above⟩ := hb.exists_visible
    obtain rfl := placed.visible_unique hv (.shown above hf shows)
    rcases List.mem_append.mp (mem_of_lookup_eq_some seen) with here | outside
    · have twice : cond ∈ b := by simpa using mem_declared here
      have hd := placed.distinct_stmt hb hf
      grind [Stmt.children]
    · obtain ⟨own, around, up⟩ := placed.parent_of_visible above outside
      have isChild : cond ∈ tree.children loop := by
        rw [tree.children_of_stmt hf]
        simp [Stmt.children, isCond]
      rw [placed.linked loop cond hb isChild] at up
      cases up
      exact placed.notMem_ancestors hb around

/-- A name that stands ahead of a condition that declares it refers to a condition of a loop around
it, which the language does not let it see. -/
theorem findLocal_of_peeksAhead (peeks : tree.PeeksAhead root name id) :
    ∃ loop init conds updates body fst cond,
      tree.stmt? loop = some (.forLoop init conds updates body) ∧ fst ∈ init ∧
      tree.Below fst id ∧ cond ∈ conds ∧ tree.findLocal id name = some cond ∧
      ∀ order, tree.Visible root id order → order.lookup name ≠ some cond := by
  induction peeks with
  | @init loop c body tested init conds updates hb hf mem test dcl =>
    obtain ⟨cond, isCond, finds, unseen⟩ := placed.findLocal_ahead hb hf mem test dcl
    exact ⟨loop, init, conds, updates, body, c, cond, hf, mem, .root, isCond, finds, unseen⟩
  | @shown id c stmt nodes above hf shows silent ih =>
    have mem : c ∈ tree.children id := by
      rw [tree.children_of_stmt hf]
      exact shows.mem_children
    cases ahead : (conditionsAhead c stmt).reverse.find? (tree.declaresLocal name) with
    | some tested =>
      -- the child stands ahead of a condition of the statement itself
      have test := List.mem_of_find?_eq_some ahead
      have dcl := List.find?_some ahead
      cases stmt with
      | forLoop init conds updates body =>
        obtain ⟨fst, test⟩ : c ∈ init ∧ tested ∈ conds := by
          simpa [conditionsAhead] using test
        obtain ⟨cond, isCond, finds, unseen⟩ :=
          placed.findLocal_ahead above.isBelow hf fst test dcl
        exact ⟨id, init, conds, updates, body, c, cond, hf, fst, .root, isCond, finds, unseen⟩
      | _ => simp [conditionsAhead] at test
    | none =>
      obtain ⟨loop, init, conds, updates, body, fst, cond, isLoop, isFirst, hi, isCond, finds, unseen⟩ := ih
      have nothing : nodes.find? (tree.declaresLocal name) = none := by simpa using silent
      refine ⟨loop, init, conds, updates, body, fst, cond, isLoop, isFirst, hi.child mem, isCond, ?_, ?_⟩
      · rw [placed.findLocal_shown above.isBelow hf shows, ahead, nothing]
        exact finds
      · intro order hv
        obtain ⟨outer, around⟩ := above.isBelow.exists_visible
        obtain rfl := placed.visible_unique hv (.shown around hf shows)
        rw [List.lookup_append, lookup_declared, nothing]
        exact unseen outer around
  | @operand id c above hf mem ih =>
    obtain ⟨loop, init, conds, updates, body, fst, cond, isLoop, isFirst, hi, isCond, finds, unseen⟩ := ih
    refine ⟨loop, init, conds, updates, body, fst, cond, isLoop, isFirst, hi.child mem, isCond, ?_, ?_⟩
    · rw [placed.findLocal_child above.isBelow mem, hf]
      exact finds
    · intro order hv
      obtain ⟨outer, around⟩ := above.isBelow.exists_visible
      obtain rfl := placed.visible_unique hv (.operand around hf mem)
      exact unseen _ around

/-- Lexical lookup is exact. At every node the language looks through the declarations in one order,
and a name refers to the first declaration of it in that order, unless it stands in the first part
of a `for` loop, ahead of a condition of the loop that declares it. Then it refers to such a
condition. -/
theorem lookup_is_lexical (below : tree.Below root id) :
    ∃ order, (∀ other, tree.Visible root id other ↔ other = order) ∧
      ∀ name, (tree.findLocal id name = order.lookup name ↔ ¬tree.PeeksAhead root name id) ∧
        (tree.PeeksAhead root name id → ∃ loop init conds updates body first cond,
          tree.stmt? loop = some (.forLoop init conds updates body) ∧ first ∈ init ∧
            tree.Below first id ∧ cond ∈ conds ∧ tree.findLocal id name = some cond) := by
  obtain ⟨order, visible⟩ := below.exists_visible
  refine ⟨order, fun other => ⟨fun also => placed.visible_unique also visible, fun same => same ▸ visible⟩,
    fun name => ⟨⟨fun equal peeks => ?_, placed.findLocal_eq_lookup visible⟩, fun peeks => ?_⟩⟩
  · obtain ⟨-, -, -, -, -, -, cond, -, -, -, -, finds, unseen⟩ := placed.findLocal_of_peeksAhead peeks
    exact unseen order visible (equal.symm.trans finds)
  · obtain ⟨loop, init, conds, updates, body, first, cond, isLoop, isFirst, inside, isCond, finds, -⟩ :=
      placed.findLocal_of_peeksAhead peeks
    exact ⟨loop, init, conds, updates, body, first, cond, isLoop, isFirst, inside, isCond, finds⟩

end IsPlaced

theorem IsBuilt.toIsPlaced (built : tree.IsBuilt root) : tree.IsPlaced root :=
  ⟨built.toIsLinked, built.distinct⟩

end Tree

/-- A unit with a `for` loop whose condition declares a local. The local is named in the body of the
loop, and already in the first part. -/
def eagerUnit : Tree where
  nodes := #[{ form := .type (.named ["String"] []), parent := some ⟨1⟩ },
    { form := .type (.nullable ⟨0⟩), parent := some ⟨13⟩ },
    { form := .type (.named ["String"] []), parent := some ⟨4⟩ },
    { form := .expr (.name "s"), parent := some ⟨4⟩ },
    { form := .stmt (.varDecl ⟨2⟩ "t" (some ⟨3⟩)), parent := some ⟨11⟩ },
    { form := .type (.named ["String"] []), parent := some ⟨7⟩ },
    { form := .expr (.name "m"), parent := some ⟨7⟩ },
    { form := .stmt (.condDecl ⟨5⟩ "s" ⟨6⟩), parent := some ⟨11⟩ },
    { form := .expr (.name "s"), parent := some ⟨9⟩ },
    { form := .stmt (.evaluate ⟨8⟩), parent := some ⟨10⟩ },
    { form := .stmt (.block [⟨9⟩]), parent := some ⟨11⟩ },
    { form := .stmt (.forLoop [⟨4⟩] [⟨7⟩] [] ⟨10⟩), parent := some ⟨12⟩ },
    { form := .stmt (.block [⟨11⟩]), parent := some ⟨13⟩ },
    { form := .stmt (.method "run" [⟨"m", ⟨1⟩⟩] [] ⟨12⟩) }]
  root := some ⟨13⟩

theorem eagerUnit_isBuilt : eagerUnit.IsBuilt ⟨13⟩ :=
  Tree.isBuilt_of_table (Tree.isFresh_of_table (by decide) (by decide) (by decide)) rfl (by decide)

theorem eagerUnit_visible_loop : eagerUnit.Visible ⟨13⟩ ⟨11⟩ [("m", ⟨1⟩)] := by
  have hf : eagerUnit.stmt? ⟨13⟩ = some (.method "run" [⟨"m", ⟨1⟩⟩] [] ⟨12⟩) := rfl
  have body : eagerUnit.Visible ⟨13⟩ ⟨12⟩ [("m", ⟨1⟩)] := .parameter .root hf (by decide)
  exact .shown body rfl (@Stmt.Shows.entry [] [] ⟨11⟩)

/-- In the body of the loop the local is found where the language has it. -/
theorem eagerUnit_sees_in_body : eagerUnit.IsPlaced ⟨13⟩ ∧
    eagerUnit.Visible ⟨13⟩ ⟨8⟩ [("s", ⟨7⟩), ("t", ⟨4⟩), ("m", ⟨1⟩)] ∧
    eagerUnit.findLocal ⟨8⟩ "s" = some ⟨7⟩ ∧ ¬eagerUnit.PeeksAhead ⟨13⟩ "s" ⟨8⟩ := by
  have placed := eagerUnit_isBuilt.toIsPlaced
  have block : eagerUnit.Visible ⟨13⟩ ⟨10⟩ [("s", ⟨7⟩), ("t", ⟨4⟩), ("m", ⟨1⟩)] :=
    .shown eagerUnit_visible_loop rfl .forBody
  have entry : eagerUnit.Visible ⟨13⟩ ⟨9⟩ [("s", ⟨7⟩), ("t", ⟨4⟩), ("m", ⟨1⟩)] :=
    .shown block rfl (@Stmt.Shows.entry [] [] ⟨9⟩)
  have visible : eagerUnit.Visible ⟨13⟩ ⟨8⟩ [("s", ⟨7⟩), ("t", ⟨4⟩), ("m", ⟨1⟩)] :=
    .shown entry rfl (.nothing rfl (by decide))
  obtain ⟨order, only, exact⟩ := placed.lookup_is_lexical visible.isBelow
  obtain rfl := (only _).mp visible
  have finds : eagerUnit.findLocal ⟨8⟩ "s" = some ⟨7⟩ := by decide
  exact ⟨placed, visible, finds, (exact "s").1.mp finds⟩

/-- In the first part of the loop the language lets no such local be seen, but one is found, and it
is declared later. -/
theorem eagerUnit_looks_ahead : eagerUnit.IsPlaced ⟨13⟩ ∧
    eagerUnit.Visible ⟨13⟩ ⟨3⟩ [("m", ⟨1⟩)] ∧ eagerUnit.findLocal ⟨3⟩ "s" = some ⟨7⟩ := by
  have first : eagerUnit.Visible ⟨13⟩ ⟨4⟩ [("m", ⟨1⟩)] :=
    .shown eagerUnit_visible_loop rfl (@Stmt.Shows.forInit [] [] [⟨7⟩] [] ⟨4⟩ ⟨10⟩)
  exact ⟨eagerUnit_isBuilt.toIsPlaced, .shown first rfl (.nothing rfl (by decide)), by decide⟩

end TreeCompiler
