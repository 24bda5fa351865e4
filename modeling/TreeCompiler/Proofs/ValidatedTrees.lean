import TreeCompiler.Proofs.Courses
import TreeCompiler.Proofs.LabelScopes
import TreeCompiler.Proofs.PeeledTrees

/-!
# Validated trees

What validation leaves of a tree: it only peels parentheses off, binds jumps to the statements that
their labels and the statements around them say, and notes values of expressions only.
-/

namespace TreeCompiler

open Step Validation

variable {own id : NodeId} {β : Type} {jump : Jump} {t : Work}

/-- What is known about the nodes under a root whatever validation has done: visits go down from the
root, and statements are reached through statements. -/
def Validation.Guide.under (s : Tree) (r : NodeId) : Guide where
  visits := s.Below r
  follows id := s.Below r id ∧ ((s.stmt? id).isSome → s.Hosts r id)
  passes id := (s.stmt? id).isSome → s.Hosts r id
  stands old new := s.Strips old new ∧ ((s.stmt? new).isSome → s.Hosts r new)
  holds id expr := ∃ orig ren, s.expr? id = some orig ∧ expr = Expr.renamed ren orig ∧
    ∀ c ∈ orig.children, s.Strips c (ren c)

/-- A tree made from another one by peeling parentheses off and binding jumps: those of statements
under the root go where their labels and the statements around them say, and only expressions have
values. -/
structure Work.Settled (s : Tree) (r : NodeId) (w : Work) : Prop where
  peels : s.Peels w.tree
  labeled : w.Labeled
  jumps : ∀ id jump, (w.tree.facts id).jump = some jump → s.Hosts r id ∧ s.Binds id jump ∧
      (w.tree.facts jump.target).labelScope.isSome ∧
      (jump.kind = .breakOut → (w.tree.facts jump.target).breakUsed = true)
  used : ∀ id, (w.tree.facts id).breakUsed = true → (w.tree.facts id).labelScope.isSome
  values : ∀ id, (w.tree.facts id).constant.isSome → s.stmt? id = none

/-- What validation keeps: also, only statements that are reached through statements become
valid. -/
structure Work.Kept (s : Tree) (r : NodeId) (w : Work) : Prop
    extends w.Settled s r where
  staged : ∀ id, (w.tree.stage id).hasReached .validated → (s.stmt? id).isSome → s.Hosts r id

theorem Tree.facts_modify_cases (tree : Tree) (id x : NodeId) (f : Facts → Facts) :
    (tree.modifyFacts id f).facts x = tree.facts x ∨
      (x = id ∧ (tree.modifyFacts id f).facts x = f (tree.facts x)) := by
  by_cases eq : x = id
  · subst eq
    by_cases hp : tree.Has x
    · exact .inr ⟨rfl, tree.facts_modify_same hp f⟩
    · refine .inl ?_
      rw [tree.facts_of_not_has hp, Tree.facts_of_not_has _ (by rwa [Tree.has_modify])]
  · exact .inl (tree.facts_modify_ne eq f)

/-- What neither label scopes nor jumps change. -/
def Facts.unaimed (facts : Facts) : Facts :=
  { facts with labelScope := none, breakUsed := false, continueUsed := false, jump := none }

namespace Work

variable {s : Tree} {r : NodeId} {w : Work}

theorem labelScope_withScope_of_some {sc : UInt32}
    (taken : (w.tree.facts id).labelScope = some sc) :
    ((w.withScope own).tree.facts id).labelScope = some sc := by
  cases hk : (w.tree.facts own).labelScope with
  | some sc => simpa [withScope, Tree.labelScope, hk] using taken
  | none =>
    have ne : id ≠ own := by
      rintro rfl
      simp [hk] at taken
    simpa [withScope, Tree.labelScope, hk, Tree.facts_modify_ne _ ne] using taken

theorem labelScope_withScope_self (hi : w.tree.Has own) :
    ((w.withScope own).tree.facts own).labelScope =
      some (w.tree.labelScope own w.labels).1 := by
  cases hk : (w.tree.facts own).labelScope with
  | some sc => simp [withScope, Tree.labelScope, hk]
  | none => simp [withScope, Tree.labelScope, hk, Tree.facts_modify_same _ hi]

variable (w) in
theorem facts_withScope_of (view : Facts → β)
    (kept : ∀ facts sc, view { facts with labelScope := some sc } = view facts)
    (own id : NodeId) : view ((w.withScope own).tree.facts id) = view (w.tree.facts id) := by
  cases hk : (w.tree.facts own).labelScope with
  | some sc => simp [withScope, Tree.labelScope, hk]
  | none =>
    simp only [withScope, Tree.labelScope, hk]
    exact Tree.facts_modify_of _ view (fun facts => kept facts w.labels) own id

theorem form?_withScope (own id : NodeId) :
    (w.withScope own).tree.form? id = w.tree.form? id := by
  cases hk : (w.tree.facts own).labelScope <;> simp [withScope, Tree.labelScope, hk]

theorem peels_withScope (peels : s.Peels w.tree) (own : NodeId) :
    s.Peels (w.withScope own).tree := by
  cases hk : (w.tree.facts own).labelScope with
  | some sc => simpa [withScope, Tree.labelScope, hk] using peels
  | none => simpa [withScope, Tree.labelScope, hk] using peels.modifyFacts own _

variable (w) in
theorem facts_jumped_of (view : Facts → β) (kept : ∀ facts : Facts, view facts.unaimed = view facts)
    (id : NodeId) (jump : Jump) (x : NodeId) :
    view ((w.jumped id jump).tree.facts x) = view (w.tree.facts x) := by
  have eq : ((w.jumped id jump).tree.facts x).unaimed = (w.tree.facts x).unaimed := by
    unfold jumped withTree
    rw [Tree.facts_modify_of _ Facts.unaimed (by intro _; rfl) id x,
      Tree.facts_modify_of _ Facts.unaimed (by intro _; cases jump.kind <;> rfl) jump.target x,
      facts_withScope_of w Facts.unaimed fun _ _ => rfl]
  rw [← kept, eq, kept]

variable (w) in
/-- What a jump does not note about itself is known from what is noted at its target. -/
theorem facts_jumped (view : Facts → β)
    (bound : ∀ facts jump, view { facts with jump := some jump } = view facts) (id : NodeId)
    (jump : Jump) (x : NodeId) : view ((w.jumped id jump).tree.facts x) =
      view (((w.withScope jump.target).tree.modifyFacts jump.target (.marked jump.kind)).facts x) :=
  Tree.facts_modify_of _ view (fun facts => bound facts jump) id x

variable (w) in
theorem labelScope_jumped (id : NodeId) (jump : Jump) (x : NodeId) :
    ((w.jumped id jump).tree.facts x).labelScope =
      ((w.withScope jump.target).tree.facts x).labelScope := by
  rw [facts_jumped _ Facts.labelScope (fun _ _ => rfl)]
  exact Tree.facts_modify_of _ Facts.labelScope (fun _ => by cases jump.kind <;> rfl) _ x

variable (w) in
theorem breakUsed_jumped (id : NodeId) (jump : Jump) (x : NodeId) :
    ((w.jumped id jump).tree.facts x).breakUsed = (w.tree.facts x).breakUsed ∨
      (x = jump.target ∧ ((w.jumped id jump).tree.facts x).breakUsed = true) := by
  have b := w.facts_withScope_of Facts.breakUsed (fun _ _ => rfl) jump.target x
  rw [facts_jumped _ Facts.breakUsed (fun _ _ => rfl)]
  rcases Tree.facts_modify_cases (w.withScope jump.target).tree jump.target x
    (.marked jump.kind) with eq | ⟨here, eq⟩
  · exact .inl (by rw [eq, b])
  · rw [eq]
    cases jump.kind with
    | breakOut => exact .inr ⟨here, rfl⟩
    | continueLoop => exact .inl b

theorem breakUsed_jumped_target (id : NodeId) (kind : jump.kind = .breakOut)
    (hi : (w.withScope jump.target).tree.Has jump.target) :
    ((w.jumped id jump).tree.facts jump.target).breakUsed = true := by
  rw [facts_jumped _ Facts.breakUsed (fun _ _ => rfl), Tree.facts_modify_same _ hi, kind]
  rfl

variable (w) in
theorem jump_jumped (id : NodeId) (jump : Jump) (x : NodeId) :
    ((w.jumped id jump).tree.facts x).jump = (w.tree.facts x).jump ∨
      (x = id ∧ ((w.jumped id jump).tree.facts x).jump = some jump) := by
  have b : (((w.withScope jump.target).tree.modifyFacts jump.target
      (.marked jump.kind)).facts x).jump = (w.tree.facts x).jump := by
    rw [Tree.facts_modify_of _ Facts.jump (fun _ => by cases jump.kind <;> rfl) _ x]
    exact w.facts_withScope_of Facts.jump (fun _ _ => rfl) jump.target x
  rcases Tree.facts_modify_cases ((w.withScope jump.target).tree.modifyFacts jump.target
    (.marked jump.kind)) id x fun facts => { facts with jump := some jump } with eq | ⟨here, eq⟩
  · exact .inl ((congrArg Facts.jump eq).trans b)
  · exact .inr ⟨here, congrArg Facts.jump eq⟩

namespace Settled

variable (hs : w.Settled s r)

include hs

/-- What is settled stays settled when jumps are left alone and more label scopes are taken. -/
theorem lasts (peels : s.Peels t.tree) (labeled : t.Labeled)
    (jumpSame : ∀ id, (t.tree.facts id).jump = (w.tree.facts id).jump)
    (usedSame : ∀ id, (t.tree.facts id).breakUsed = (w.tree.facts id).breakUsed)
    (scopeLasts : ∀ id, (w.tree.facts id).labelScope.isSome → (t.tree.facts id).labelScope.isSome)
    (valueSame : ∀ id, (t.tree.facts id).constant.isSome →
      (w.tree.facts id).constant.isSome ∨ s.stmt? id = none) : t.Settled s r := by
  refine ⟨peels, labeled, ?_, ?_, ?_⟩
  · intro id jump hf
    rw [jumpSame] at hf
    obtain ⟨hosts, binds, taken, used⟩ := hs.jumps id jump hf
    refine ⟨hosts, binds, scopeLasts _ taken, ?_⟩
    rwa [usedSame]
  · intro id used
    rw [usedSame] at used
    exact scopeLasts id (hs.used id used)
  · intro id some
    rcases valueSame id some with hk | hp
    · exact hs.values id hk
    · exact hp

/-- Only the forms, the facts and the counter matter. -/
theorem congr (peels : s.Peels t.tree) (labels : t.labels = w.labels)
    (facts : ∀ id, t.tree.facts id = w.tree.facts id) : t.Settled s r := by
  refine hs.lasts peels (hs.labeled.congr labels fun id => by rw [facts])
    (fun id => by rw [facts]) (fun id => by rw [facts]) (fun id => ?_) fun id => ?_
  · rw [facts]
    exact fun taken => taken
  · rw [facts]
    exact .inl

/-- Notes that say nothing about jumps. -/
theorem noted (id : NodeId) {f : Facts → Facts} (eq : ∀ facts : Facts, (f facts).jump = facts.jump ∧
      (f facts).labelScope = facts.labelScope ∧ (f facts).breakUsed = facts.breakUsed)
    (v : ∀ facts : Facts, (f facts).constant.isSome → facts.constant.isSome ∨ s.stmt? id = none) :
    (w.withTree (w.tree.modifyFacts id f)).Settled s r := by
  have scopeSame := w.tree.facts_modify_of Facts.labelScope (fun facts => (eq facts).2.1) id
  refine hs.lasts (hs.peels.modifyFacts id f) (hs.labeled.congr rfl scopeSame)
    (w.tree.facts_modify_of Facts.jump (fun facts => (eq facts).1) id)
    (w.tree.facts_modify_of Facts.breakUsed (fun facts => (eq facts).2.2) id)
    (fun x taken => ?_) fun x some => ?_
  · exact (congrArg Option.isSome (scopeSame x)).trans taken
  · rcases w.tree.facts_modify_cases id x f with he | ⟨rfl, he⟩
    · exact .inl ((congrArg (·.constant.isSome) he).symm.trans some)
    · exact v _ ((congrArg (·.constant.isSome) he).symm.trans some)

theorem withScope (hi : w.tree.Has own) : (w.withScope own).Settled s r := by
  refine hs.lasts (peels_withScope hs.peels own) (hs.labeled.withScope hi)
    (w.facts_withScope_of Facts.jump (fun _ _ => rfl) own)
    (w.facts_withScope_of Facts.breakUsed (fun _ _ => rfl) own) (fun id taken => ?_)
    fun id some => ?_
  · obtain ⟨sc, taken⟩ := Option.isSome_iff_exists.mp taken
    rw [labelScope_withScope_of_some taken]
    rfl
  · rw [w.facts_withScope_of Facts.constant (fun _ _ => rfl) own] at some
    exact .inl some

/-- A jump is bound to its target. -/
theorem jumped (lk : s.IsLinked r) (hosts : s.Hosts r id)
    (binds : s.Binds id jump) : (w.jumped id jump).Settled s r := by
  obtain ⟨-, offers, -⟩ := lk.binds_target hosts.isBelow binds
  have hi : w.tree.Has jump.target := by
    rw [Option.any_eq_true] at offers
    obtain ⟨stmt, hf, -⟩ := offers
    exact (hs.peels.has_iff jump.target).mpr (s.has_of_stmt hf)
  have peeled := peels_withScope hs.peels jump.target
  have insideScoped : (w.withScope jump.target).tree.Has jump.target := by
    rwa [peeled.has_iff, ← hs.peels.has_iff]
  have scopeLasts : ∀ x, (w.tree.facts x).labelScope.isSome →
      ((w.jumped id jump).tree.facts x).labelScope.isSome := by
    intro x taken
    obtain ⟨sc, taken⟩ := Option.isSome_iff_exists.mp taken
    rw [labelScope_jumped, labelScope_withScope_of_some taken]
    rfl
  have scopeTarget : ((w.jumped id jump).tree.facts jump.target).labelScope.isSome := by
    rw [labelScope_jumped, labelScope_withScope_self hi]
    rfl
  have peeledAfter : s.Peels (w.jumped id jump).tree :=
    (peeled.modifyFacts jump.target (.marked jump.kind)).modifyFacts id
      fun facts => { facts with jump := some jump }
  refine ⟨peeledAfter, (hs.labeled.withScope hi).congr rfl (w.labelScope_jumped id jump), ?_, ?_, ?_⟩
  · intro x hf hk
    rcases w.jump_jumped id jump x with eq | ⟨rfl, bound⟩
    · rw [eq] at hk
      obtain ⟨above, bound, taken, used⟩ := hs.jumps x hf hk
      refine ⟨above, bound, scopeLasts _ taken, fun kind => ?_⟩
      rcases w.breakUsed_jumped id jump hf.target with eq | ⟨-, broken⟩
      · rw [eq]
        exact used kind
      · exact broken
    · cases bound.symm.trans hk
      exact ⟨hosts, binds, scopeTarget, fun kind => breakUsed_jumped_target x kind insideScoped⟩
  · intro x broken
    rcases w.breakUsed_jumped id jump x with eq | ⟨rfl, -⟩
    · rw [eq] at broken
      exact scopeLasts x (hs.used x broken)
    · exact scopeTarget
  · intro x some
    rw [w.facts_jumped_of Facts.constant fun _ => rfl] at some
    exact hs.values x some

end Settled

namespace Kept

variable (kept : w.Kept s r)

include kept

theorem congr (peels : s.Peels t.tree) (labels : t.labels = w.labels)
    (facts : ∀ id, t.tree.facts id = w.tree.facts id) : t.Kept s r := by
  refine ⟨kept.toSettled.congr peels labels facts, fun id => ?_⟩
  rw [Tree.stage, facts]
  exact kept.staged id

theorem noted (id : NodeId) {f : Facts → Facts} (eq : ∀ facts : Facts, (f facts).jump = facts.jump ∧
      (f facts).labelScope = facts.labelScope ∧ (f facts).breakUsed = facts.breakUsed)
    (stage : ∀ facts : Facts, (f facts).stage.hasReached .validated →
      facts.stage.hasReached .validated ∨ (Guide.under s r).passes id)
    (v : ∀ facts : Facts, (f facts).constant.isSome → facts.constant.isSome ∨ s.stmt? id = none) :
    (w.withTree (w.tree.modifyFacts id f)).Kept s r := by
  refine ⟨kept.toSettled.noted id eq v, fun x hr hs => ?_⟩
  rcases w.tree.facts_modify_cases id x f with he | ⟨rfl, he⟩
  · exact kept.staged x (by simpa [withTree, Tree.stage, he] using hr) hs
  · rcases stage _ (by simpa [withTree, Tree.stage, he] using hr) with hr | passes
    · exact kept.staged x hr hs
    · exact passes hs

theorem jumped (lk : s.IsLinked r) (hosts : s.Hosts r id)
    (binds : s.Binds id jump) : (w.jumped id jump).Kept s r := by
  refine ⟨kept.toSettled.jumped lk hosts binds, fun x hr => ?_⟩
  rw [Tree.stage, w.facts_jumped_of Facts.stage fun _ => rfl] at hr
  exact kept.staged x hr

end Kept

end Work

namespace Validation.Guide

variable {s : Tree} {r : NodeId}

/-- What stands for the content of parentheses stands for the parenthesised expression. The content
is no statement: statements stand for themselves only, and none lies under an expression. -/
theorem stands_paren (lk : s.IsLinked r) {i new : NodeId}
    (hb : s.Below r id) (h : (under s r).holds id (.paren i))
    (stands : (under s r).stands i new) : (under s r).stands id new := by
  obtain ⟨orig, ren, hf, he, hst⟩ := h
  obtain ⟨stripped, hosted⟩ := stands
  cases orig with
  | paren old =>
    cases he
    have whole := (hst old (by simp [Expr.children])).trans stripped
    have mem : old ∈ s.children id := by simp [s.children_of_expr hf, Expr.children]
    have hp : s.stmt? old = none := by
      by_contra hs
      have hs : (s.stmt? old).isSome := Option.isSome_iff_ne_none.mpr hs
      obtain rfl := whole.eq_of_stmt hs
      have link := lk.linked id new hb mem
      obtain ⟨-, above⟩ := (hosted hs).parent lk link
      rw [s.stmt?_of_expr hf] at above
      simp at above
    exact ⟨.paren hf hp whole, hosted⟩
  | _ => simp [Expr.renamed] at he

end Validation.Guide

theorem validationInvariant_kept {s : Tree} {r : NodeId} (lk : s.IsLinked r) :
    ValidationInvariant (.under s r) (Work.Kept s r) where
  child := by
    intro w id c kept hb mem
    obtain ⟨ren, form, hst⟩ := kept.peels.forms id
    have children : w.tree.children id = (s.children id).map ren := by
      unfold Tree.children
      rw [form]
      cases s.form? id <;> simp [Form.children_mapChildren]
    rw [children] at mem
    obtain ⟨old, hi, rfl⟩ := List.mem_map.mp mem
    exact (hst old hi).isBelow (hb.child hi)
  followed := by
    rintro w id stmt c kept ⟨hb, hosts⟩ hf mem
    obtain ⟨ren, he, hst⟩ := kept.peels.stmt?_eq id
    rw [hf] at he
    obtain ⟨orig, here, rfl⟩ := Option.map_eq_some_iff.mp he.symm
    refine ⟨?_, fun hs => ?_⟩
    · rw [Stmt.children_renamed] at mem
      obtain ⟨old, hi, rfl⟩ := List.mem_map.mp mem
      have hi : old ∈ s.children id := by rwa [s.children_of_stmt here]
      exact (hst old hi).isBelow (hb.child hi)
    · have isChild := kept.peels.child_of_stmt hf mem hs
      rw [s.children_of_stmt here] at isChild
      exact (hosts (by simp [here])).child here isChild
  visited := fun hfo => hfo.1
  held := by
    intro w id expr kept hb hf
    obtain ⟨ren, he, hst⟩ := kept.peels.expr?_eq id
    rw [hf] at he
    obtain ⟨orig, here, rfl⟩ := Option.map_eq_some_iff.mp he.symm
    rw [s.children_of_expr here] at hst
    exact ⟨orig, ren, here, rfl, hst⟩
  passed := fun hfo => hfo.2
  passes_form := by
    intro w id kept hb hp hs
    rw [← kept.peels.isSome_stmt?, hp] at hs
    simp at hs
  passes_stage := fun kept hr => kept.staged _ hr
  passes_stands := fun stands => stands.2
  visits_stands := fun hb stands => stands.1.isBelow hb
  stands_self := fun _ passes => ⟨.self _, passes⟩
  stands_paren := fun hb h stands => Guide.stands_paren lk hb h stands
  stage := fun w id stage kept _ allowed =>
    kept.noted id (fun _ => ⟨rfl, rfl, rfl⟩) (fun _ hr => .inr (allowed hr)) fun _ => .inl
  type := fun w id ty kept _ =>
    kept.noted id (fun _ => ⟨rfl, rfl, rfl⟩) (fun _ => .inl) fun _ => .inl
  value := by
    rintro w id expr ty k kept hb ⟨orig, -, hf, -⟩ -
    exact kept.noted id (fun _ => ⟨rfl, rfl, rfl⟩) (fun _ => .inl) fun _ _ =>
      .inr (s.stmt?_of_expr hf)
  fit := fun w id fit kept _ =>
    kept.noted id (fun _ => ⟨rfl, rfl, rfl⟩) (fun _ => .inl) fun _ => .inl
  report := fun _ _ kept => kept.congr kept.peels rfl fun _ => rfl
  pool := fun _ _ kept _ => kept.congr kept.peels rfl fun _ => rfl
  jump := by
    rintro w id kind l tgt kept ⟨hb, hosts⟩ form unbound hf
    have hs : (s.stmt? id).isSome := by
      rw [← kept.peels.isSome_stmt?]
      obtain ⟨stmt, here, -⟩ := Option.bind_eq_some_iff.mp form
      simp [here]
    refine kept.jumped lk (hosts hs) ?_
    rw [← kept.peels.binds_iff lk (hosts hs)]
    exact ⟨l, form, hf, rfl⟩
  replace := by
    intro w id i new up kept hb h stands linkedTo
    obtain ⟨hst, -⟩ := Guide.stands_paren lk hb h stands
    obtain ⟨orig, -, hf, -⟩ := h
    exact kept.congr (kept.peels.replaceChild up hst (s.stmt?_of_expr hf)) rfl
      (w.tree.facts_replaceChild up id new)

theorem resolutionInvariant_kept (s : Tree) (r : NodeId) : ResolutionInvariant (Work.Kept s r) := by
  refine .of_facts ⟨fun _ _ kept => kept.congr kept.peels rfl fun _ => rfl,
    fun _ _ _ kept => kept.congr kept.peels rfl fun _ => rfl⟩ ?_
    fun _ _ kept => kept.congr kept.peels rfl fun _ => rfl
  intro w id f kept resolves
  have eq : ∀ {β : Type} (view : Facts → β), (∀ facts : Facts, view facts.unresolved = view facts) →
      ∀ facts : Facts, view (f facts) = view facts := by
    intro β view blind facts
    rw [← blind, (resolves facts).1, blind]
  refine kept.noted id (fun facts => ⟨eq Facts.jump (fun _ => rfl) facts,
    eq Facts.labelScope (fun _ => rfl) facts, eq Facts.breakUsed (fun _ => rfl) facts⟩)
    (fun facts hr => .inl ?_) fun facts some => .inl ?_
  · rcases (resolves facts).2 with eq | early
    · rwa [← eq]
    · simp [early] at hr
  · rwa [← eq Facts.constant (fun _ => rfl) facts]

theorem Tree.IsFresh.kept {w : Work} {r : NodeId} (fresh : w.tree.IsFresh r) : w.Kept w.tree r where
  peels := .refl _
  labeled := .of_blank fun id => by rw [fresh.blank]
  jumps id jump hf := by simp [fresh.blank] at hf
  used id used := by simp [fresh.blank] at used
  values id some := by simp [fresh.blank] at some
  staged id hr := by simp [Tree.stage, fresh.blank, Stage.hasReached, Stage.isUpTo, Stage.rank] at hr

namespace Course

variable {c res validated : Course} {cap : Option Nat} {out : Outcome} {r : NodeId}
  (fresh : c.work.tree.IsFresh c.root)
  (ranResolve : resolve cap c = .ok out res)
  (ranValidate : validate res = .ok (some r) validated)

include fresh ranResolve ranValidate

theorem kept_of_resolve : res.work.Kept c.work.tree c.root ∧
    Validation.validate c.root res.work = .ok (some r) validated.work := by
  obtain ⟨kept, eq⟩ : res.work.Kept c.work.tree c.root ∧ res.root = c.root :=
    ((resolutionInvariant_kept c.work.tree c.root).always_resolve cap).keeps c out
      res ⟨fresh.kept, rfl⟩ ranResolve
  obtain ⟨w, ran, rfl⟩ := validate_ok ranValidate
  exact ⟨kept, eq ▸ ran⟩

/-- A unit that was built, resolved and validated. -/
theorem kept_of_validate : validated.work.Kept c.work.tree c.root := by
  obtain ⟨kept, ran⟩ := kept_of_resolve fresh ranResolve ranValidate
  exact (validationInvariant_kept fresh.toIsLinked).keeps_validate ⟨.root, fun _ => .root⟩ _ _ _ kept ran

end Course

end TreeCompiler
