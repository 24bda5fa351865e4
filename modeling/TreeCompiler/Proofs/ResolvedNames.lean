import TreeCompiler.Proofs.Cascades
import TreeCompiler.Proofs.Courses
import TreeCompiler.Proofs.Reports
import TreeCompiler.Proofs.ResolvedTypes

/-!
# Resolved names

What resolution leaves when it reports nothing serious: every node that can be completed is resolved
or left over. A name that is resolved is bound to what its scope says, a resolved type name means a
type, and every leftover is excused by the alias it uses.
-/

namespace TreeCompiler

open Step

/-! ### Lookups -/

variable {tree : Tree} {prog : Progress}

namespace SymbolTable

variable {table : SymbolTable} {sc name : String}

theorem lookup_found {comp : Component} (hf : (table.lookup sc name).1 = .found comp) :
    ∃ sym ∈ table.symbols, sym.component = comp := by
  unfold lookup at hf
  cases here : table.find? (table.target sc name) with
  | none => simp [here] at hf
  | some sym =>
    simp only [here] at hf
    split at hf
    · simp only [Lookup.found.injEq] at hf
      exact ⟨sym, List.mem_of_find?_eq_some here, hf⟩
    · simp at hf

/-- Only an answer that is held back changes the table. -/
theorem lookup_snd_of_prompt (prompt : (table.lookup sc name).1 ≠ .notYet) :
    (table.lookup sc name).2 = table := by
  unfold lookup at prompt ⊢
  dsimp only at prompt ⊢
  split
  · rfl
  · split <;> simp_all

theorem component_lookup {sym : Symbol} (mem : sym ∈ (table.lookup sc name).2.symbols) :
    ∃ x ∈ table.symbols, x.component = sym.component := by
  unfold lookup at mem
  cases here : table.find? (table.target sc name) with
  | none =>
    simp only [here] at mem
    exact ⟨sym, mem, rfl⟩
  | some entry =>
    simp only [here] at mem
    split at mem
    · exact ⟨sym, mem, rfl⟩
    · obtain ⟨x, hi, rfl⟩ := List.mem_map.mp mem
      refine ⟨x, hi, ?_⟩
      split <;> rfl

end SymbolTable

/-- What a look at names may change: constants are interned and symbols counted down. -/
structure Work.Looks (b t : Work) : Prop where
  tree : t.tree = b.tree
  pool : t.pool.Extends b.pool
  symbols : ∀ sym ∈ t.symbols.symbols, ∃ x ∈ b.symbols.symbols, x.component = sym.component

namespace Work

variable {b mid t : Work}

theorem Looks.refl (w : Work) : w.Looks w :=
  ⟨rfl, .refl _, fun sym mem => ⟨sym, mem, rfl⟩⟩

theorem Looks.trans (hea : b.Looks mid) (later : mid.Looks t) : b.Looks t where
  tree := later.tree.trans hea.tree
  pool := later.pool.trans hea.pool
  symbols sym mem := by
    obtain ⟨x, hi, eq⟩ := later.symbols sym mem
    obtain ⟨fst, here, he⟩ := hea.symbols x hi
    exact ⟨fst, here, he.trans eq⟩

theorem Grown.looks (hg : b.Grown t) : b.Looks t := by
  obtain ⟨p, extd, rfl⟩ := hg
  exact ⟨rfl, extd, fun sym mem => ⟨sym, mem, rfl⟩⟩

end Work

/-- The local that a name at a node refers to. A name with dots refers to none. -/
def Tree.localOf (tree : Tree) (id : NodeId) (name : String) : Option NodeId :=
  if Text.hasDot name then none else tree.findLocal id name

theorem Tree.findLocal_of_localOf {id decl : NodeId} {name : String}
    (hf : tree.localOf id name = some decl) : tree.findLocal id name = some decl := by
  unfold localOf at hf
  split at hf
  · simp at hf
  · exact hf

theorem Tree.SameShape.localOf {fst snd : Tree} (eq : fst.SameShape snd) (id : NodeId)
    (name : String) : snd.localOf id name = fst.localOf id name := by
  simp only [Tree.localOf, eq.findLocal]

/-- What a name at a node may be bound to, given what names outside the unit denote. -/
def Tree.Refers (tree : Tree) (denoted : Component → Prop) (id : NodeId) (name : String) : Binding → Prop
  | .localDecl decl => tree.localOf id name = some decl
  | .constant ty v => denoted (.constant ty v) ∧ tree.localOf id name = none
  | .type _ | .space _ => True

/-- Whether a type expression is a name or keyword, which resolution finds the type of. -/
def TypeExpr.isWord : TypeExpr → Bool
  | .named .. | .keyword _ => true
  | .tuple _ | .nullable _ | .bad _ => false

namespace Resolution

open WorkM

variable {w t : Work} {sc name : String} {id : NodeId}

theorem lookup_ok {ans : Lookup} (done : lookup sc name w = .ok ans t) :
    w.Looks t ∧ ∀ comp, ans = .found comp →
      ∃ sym ∈ w.symbols.symbols, sym.component = comp := by
  obtain he := modifyGet_ok.mp done
  obtain ⟨rfl, rfl⟩ := he
  exact ⟨⟨rfl, .refl _, fun sym mem => SymbolTable.component_lookup mem⟩,
    fun comp hf => SymbolTable.lookup_found hf⟩

/-- The type that a name outside the unit denotes is one that the table holds. -/
theorem lookupTypeSymbol_ok {ans : TypeLookup} (done : lookupTypeSymbol sc name w = .ok ans t) :
    w.Looks t ∧ ∀ ty, ans = .type ty → ∃ sym ∈ w.symbols.symbols, sym.component = .type ty := by
  obtain ⟨hf, mid, hl, done⟩ := bind_ok.mp done
  obtain ⟨looks, held⟩ := lookup_ok hl
  cases hf with
  | found comp =>
    cases comp with
    | type ty =>
      cases done
      exact ⟨looks, fun x he => held _ (by rw [TypeLookup.type.inj he])⟩
    | constant ty v | space name =>
      cases done
      exact ⟨looks, by simp⟩
  | notFound | notYet =>
    cases done
    exact ⟨looks, by simp⟩

theorem lookupType_ok {names : List String} {ans : TypeLookup}
    (hk : ∀ sym ∈ w.symbols.symbols, ∀ ty, sym.component = .type ty →
      ∃ term, w.pool.Means ty term) (done : lookupType sc id names w = .ok ans t) :
    w.Looks t ∧ ∀ ty, ans = .type ty → ∃ term, t.pool.Means ty term := by
  have outside : ∀ {name : String}, lookupTypeSymbol sc name w = .ok ans t →
      w.Looks t ∧ ∀ ty, ans = .type ty → ∃ term, t.pool.Means ty term := by
    intro name done
    obtain ⟨looks, held⟩ := lookupTypeSymbol_ok done
    refine ⟨looks, fun ty he => ?_⟩
    obtain ⟨sym, mem, ht⟩ := held ty he
    obtain ⟨term, means⟩ := hk sym mem ty ht
    exact ⟨term, means.extends looks.pool⟩
  match names with
  | [] | _ :: _ :: _ => exact outside done
  | [name] =>
    replace done := rest_ok done rfl
    cases hv : w.tree.findTypedef id name with
    | some typedef =>
      simp only [hv] at done
      obtain ⟨type?, mid, ran, done⟩ := bind_ok.mp done
      obtain ⟨hg, means⟩ := typedefType_ok ran
      cases type? with
      | none =>
        cases done
        exact ⟨hg.looks, by simp⟩
      | some ty =>
        cases done
        refine ⟨hg.looks, fun x he => ?_⟩
        obtain rfl := TypeLookup.type.inj he
        exact means ty rfl
    | none =>
      simp only [hv] at done
      split at done
      · obtain ⟨ty, ran, rfl⟩ := map_ok.mp done
        obtain ⟨p, interned, rfl⟩ := onPool_ok.mp ran
        have he := modifyGet_ok.mp interned
        have extd := Pool.Extends.intern w.pool (.type (.named name))
        have means := Pool.means_intern_leaf w.pool (.type (.named name)) rfl
        rw [he] at extd means
        refine ⟨⟨rfl, extd, fun sym mem => ⟨sym, mem, rfl⟩⟩, fun x eq => ?_⟩
        obtain rfl := TypeLookup.type.inj eq
        exact ⟨_, means⟩
      · exact outside done

theorem lookupSymbol_ok {ans : NameLookup} (done : lookupSymbol sc name w = .ok ans t) :
    w.Looks t ∧ ∀ binding, ans = .bound binding →
      ∃ sym ∈ w.symbols.symbols, sym.component.binding = binding := by
  obtain ⟨hf, mid, hl, done⟩ := bind_ok.mp done
  obtain ⟨looks, held⟩ := lookup_ok hl
  cases hf with
  | found comp =>
    cases done
    refine ⟨looks, fun binding he => ?_⟩
    obtain ⟨sym, mem, rfl⟩ := held comp rfl
    exact ⟨sym, mem, NameLookup.bound.inj he⟩
  | notFound | notYet =>
    cases done
    exact ⟨looks, by simp⟩

/-- A name is bound to the declaration that its scope says, or to something outside the unit. -/
theorem lookupName_ok {ans : NameLookup} {denoted : Component → Prop}
    (symbols : ∀ sym ∈ w.symbols.symbols, denoted sym.component)
    (done : lookupName sc id name w = .ok ans t) : w.Looks t ∧ ∀ binding, ans = .bound binding →
      w.tree.Refers denoted id name binding := by
  have outside : ∀ {mid : Work}, w.tree.localOf id name = none → w.Looks mid →
      lookupSymbol sc name mid = .ok ans t →
      w.Looks t ∧ ∀ binding, ans = .bound binding →
        w.tree.Refers denoted id name binding := by
    intro mid noLocal looks done
    obtain ⟨hfu, held⟩ := lookupSymbol_ok done
    refine ⟨looks.trans hfu, fun binding he => ?_⟩
    obtain ⟨sym, mem, rfl⟩ := held binding he
    obtain ⟨x, hi, eq⟩ := looks.symbols sym mem
    have h := symbols x hi
    rw [eq] at h
    cases comp : sym.component with
    | constant ty v =>
      rw [comp] at h
      exact ⟨h, noLocal⟩
    | type ty | space name => trivial
  unfold lookupName at done
  split at done
  · rename_i dotted
    exact outside (by simp [Tree.localOf, dotted]) (.refl w) done
  · rename_i hp
    have here : w.tree.localOf id name = w.tree.findLocal id name := by
      simp [Tree.localOf, hp]
    obtain ⟨inUnit, mid, ran, done⟩ := bind_ok.mp done
    cases lookupInUnit_ok ran with
    | declared hd =>
      cases done
      refine ⟨.refl w, fun binding he => ?_⟩
      obtain rfl := NameLookup.bound.inj he
      exact here.trans hd
    | @aliased _ type? _ typed =>
      obtain ⟨rfl, rfl⟩ := pure_ok.mp done
      refine ⟨(typedefType_ok typed).1.looks, fun binding he => ?_⟩
      cases type? with
      | none => simp at he
      | some ty =>
        obtain rfl := NameLookup.bound.inj he
        trivial
    | builtin interned =>
      obtain ⟨rfl, rfl⟩ := pure_ok.mp done
      have hg := (always_grown_onPool (PoolM.grows_intern _) w).keeps w _ _ (.refl w) interned
      refine ⟨hg.looks, fun binding he => ?_⟩
      obtain rfl := NameLookup.bound.inj he
      trivial
    | absent hd => exact outside (here.trans hd) (.refl w) done

end Resolution

/-! ### Resolved nodes -/

/-- What resolution found at a node: a type name means a type and a name is bound. -/
structure Work.Answers (s : Tree) (denoted : Component → Prop) (w : Work) (id : NodeId) : Prop where
  type : ∀ expr, s.type? id = some expr → expr.isWord = true →
    ∃ type term, (w.tree.facts id).type = some type ∧ w.pool.Means type term
  name : ∀ name, s.expr? id = some (.name name) →
    ∃ binding, (w.tree.facts id).binding = some binding ∧ s.Refers denoted id name binding

/-- Work on a tree whose names are being resolved without anything serious. -/
structure Work.Named (s : Tree) (denoted : Component → Prop) (w : Work) : Prop where
  shape : s.SameShape w.tree
  symbols : ∀ sym ∈ w.symbols.symbols, denoted sym.component
  known : ∀ ty, denoted (.type ty) → ∃ term, w.pool.Means ty term
  early : ∀ id, (w.tree.stage id).isUpTo .resolved = true
  resolved : ∀ id, w.tree.stage id = .resolved → w.Answers s denoted id

theorem Tree.stage_modify_of (tree : Tree) {id : NodeId} {f : Facts → Facts}
    (kept : ∀ facts, (f facts).stage = facts.stage) (x : NodeId) :
    (tree.modifyFacts id f).stage x = tree.stage x :=
  tree.facts_modify_of Facts.stage kept id x

theorem Tree.stage_setStage_ne (tree : Tree) {id x : NodeId} (ne : x ≠ id)
    (stage : Stage) : (tree.setStage id stage).stage x = tree.stage x := by
  simp only [Tree.stage, setStage, tree.facts_modify_ne ne]

theorem Tree.stage_setStage_same (tree : Tree) {id : NodeId} (hp : tree.Has id) (stage : Stage) :
    (tree.setStage id stage).stage id = stage := by
  simp only [Tree.stage, setStage, tree.facts_modify_same hp]

theorem Tree.stage_setStage_cases (tree : Tree) (id x : NodeId) (stage : Stage) :
    (tree.setStage id stage).stage x = tree.stage x ∨
      (x = id ∧ (tree.setStage id stage).stage x = stage) := by
  by_cases eq : x = id
  · subst eq
    by_cases hp : tree.Has x
    · exact .inr ⟨rfl, tree.stage_setStage_same hp stage⟩
    · left
      rw [Tree.stage, Tree.stage, tree.facts_of_not_has hp,
        Tree.facts_of_not_has _ (by rwa [Tree.has_setStage])]
  · exact .inl (tree.stage_setStage_ne eq stage)

namespace Work

variable {s : Tree} {denoted : Component → Prop} {w t : Work} {id x : NodeId}

theorem Answers.keep (ans : w.Answers s denoted id)
    (ty : (t.tree.facts id).type = (w.tree.facts id).type)
    (binding : (t.tree.facts id).binding = (w.tree.facts id).binding)
    (retains : w.pool.Retains t.pool) : t.Answers s denoted id where
  type expr hf isWord := by
    obtain ⟨hno, term, here, means⟩ := ans.type expr hf isWord
    exact ⟨hno, term, ty.trans here, retains _ _ means⟩
  name name hf := by
    obtain ⟨bound, here, refers⟩ := ans.name name hf
    exact ⟨bound, binding.trans here, refers⟩

namespace Named

variable (hn : w.Named s denoted)

include hn

theorem looks (looks : w.Looks t) : t.Named s denoted where
  shape := by rw [looks.tree]; exact hn.shape
  symbols sym mem := by
    obtain ⟨x, hi, eq⟩ := looks.symbols sym mem
    rw [← eq]
    exact hn.symbols x hi
  known ty held := by
    obtain ⟨term, means⟩ := hn.known ty held
    exact ⟨term, means.extends looks.pool⟩
  early id := by rw [looks.tree]; exact hn.early id
  resolved id stage := by
    rw [looks.tree] at stage
    exact (hn.resolved id stage).keep (by rw [looks.tree]) (by rw [looks.tree]) looks.pool.retains

theorem withPool {p : Pool} (retains : w.pool.Retains p) : (w.withPool p).Named s denoted where
  shape := hn.shape
  symbols := hn.symbols
  known ty held := by
    obtain ⟨term, means⟩ := hn.known ty held
    exact ⟨term, retains _ _ means⟩
  early := hn.early
  resolved id stage := (hn.resolved id stage).keep rfl rfl retains

/-- What is noted about a node that is not resolved matters to no other. -/
theorem note (pending : w.tree.stage id ≠ .resolved) (f : Facts → Facts)
    (kept : ∀ facts, (f facts).stage = facts.stage) :
    (w.withTree (w.tree.modifyFacts id f)).Named s denoted where
  shape := hn.shape.trans (.modifyFacts _ _ _)
  symbols := hn.symbols
  known := hn.known
  early x := by
    rw [withTree_tree, w.tree.stage_modify_of kept]
    exact hn.early x
  resolved x stage := by
    rw [withTree_tree, w.tree.stage_modify_of kept] at stage
    have ne : x ≠ id := by
      rintro rfl
      exact pending stage
    have eq := w.tree.facts_modify_ne ne f
    refine (hn.resolved x stage).keep ?_ ?_ (.refl _)
    · rw [withTree_tree, eq]
    · rw [withTree_tree, eq]

theorem setStage {stage : Stage} (early : stage.isUpTo .resolved = true)
    (ans : stage = .resolved → w.Answers s denoted id) :
    (w.withTree (w.tree.setStage id stage)).Named s denoted where
  shape := by
    rw [withTree_tree, Tree.setStage]
    exact hn.shape.trans (.modifyFacts _ _ _)
  symbols := hn.symbols
  known := hn.known
  early x := by
    rw [withTree_tree]
    rcases w.tree.stage_setStage_cases id x stage with eq | ⟨-, eq⟩
    · rw [eq]
      exact hn.early x
    · rw [eq]
      exact early
  resolved x hr := by
    rw [withTree_tree] at hr
    have ans : w.Answers s denoted x := by
      rcases w.tree.stage_setStage_cases id x stage with eq | ⟨rfl, eq⟩
      · exact hn.resolved x (eq.symm.trans hr)
      · exact ans (eq.symm.trans hr)
    refine ans.keep ?_ ?_ (.refl _)
    · rw [withTree_tree, Tree.setStage]
      exact w.tree.facts_modify_of Facts.type (fun _ => by rfl) id x
    · rw [withTree_tree, Tree.setStage]
      exact w.tree.facts_modify_of Facts.binding (fun _ => by rfl) id x

end Named

end Work

namespace Resolution

open WorkM Work

variable {s : Tree} {denoted : Component → Prop} {w t : Work} {sc : String} {id : NodeId}

theorem settleType_named (hn : w.Named s denoted) (hp : w.tree.Has id)
    (pending : w.tree.stage id ≠ .resolved) {ty : ConstId} {term : Term}
    (means : w.pool.Means ty term) {u : Unit} (done : settleType id ty w = .ok u t) :
    t.Named s denoted ∧ (∀ x, t.tree.stage x = w.tree.stage x) ∧
      ∃ ty term, (t.tree.facts id).type = some ty ∧ t.pool.Means ty term := by
  have hno : ∀ {u : Unit}, modifyFacts id (fun facts => { facts with type := some ty }) w =
      .ok u t → t.Named s denoted ∧ (∀ x, t.tree.stage x = w.tree.stage x) ∧
        ∃ ty term, (t.tree.facts id).type = some ty ∧ t.pool.Means ty term := by
    intro u done
    obtain rfl := modifyFacts_ok.mp done
    refine ⟨hn.note pending _ (fun _ => by rfl), fun x => ?_, ty, term, ?_, means⟩
    · exact w.tree.stage_modify_of (fun _ => by rfl) x
    · rw [withTree_tree, w.tree.facts_modify_same hp]
  replace done := rest_ok done rfl
  cases he : (w.tree.facts id).type with
  | none =>
    simp only [he] at done
    exact hno done
  | some earlier' =>
    simp only [he] at done
    obtain ⟨entry, eq, hl, done⟩ := bind_ok.mp done
    obtain ⟨-, rfl⟩ := readPool_ok.mp hl
    split at done
    · obtain ⟨p, filled, rfl⟩ := onPool_ok.mp done
      obtain ⟨retains, meansFilled⟩ := Pool.means_of_fill filled means
      exact ⟨hn.withPool retains, fun _ => rfl, earlier', term, he, meansFilled⟩
    · exact hno done

theorem deferType_named (hn : w.Named s denoted) (pending : w.tree.stage id ≠ .resolved)
    {name : String} {u : Unit} (done : deferType id name w = .ok u t) :
    t.Named s denoted ∧ ∀ x, t.tree.stage x = w.tree.stage x := by
  replace done := rest_ok done rfl
  split at done
  · obtain ⟨hole, mid, pushed, done⟩ := bind_ok.mp done
    obtain ⟨p, ran, rfl⟩ := onPool_ok.mp pushed
    obtain rfl := modifyFacts_ok.mp done
    have he := modifyGet_ok.mp ran
    have extd := Pool.Extends.addPlaceholder w.pool name
    rw [he] at extd
    refine ⟨(hn.withPool extd.retains).note pending _ (fun _ => by rfl), fun x => ?_⟩
    exact w.tree.stage_modify_of (fun _ => by rfl) x
  · cases done
    exact ⟨hn, fun _ => rfl⟩

theorem type?_eq_none_of_expr {expr : Expr} (hf : tree.expr? id = some expr) :
    tree.type? id = none := by
  simp [Tree.type?, tree.form?_of_expr hf, Form.type?]

theorem has_of_type {ty : TypeExpr} (hf : tree.type? id = some ty) : tree.Has id := by
  unfold Tree.Has
  cases hp : tree.node? id with
  | none => simp [Tree.type?, Tree.form?, hp] at hf
  | some node => rfl

theorem resolveTypeName_named (hn : w.Named s denoted) (pending : w.tree.stage id ≠ .resolved)
    (done : resolveTypeName sc id w = .ok prog t) (quiet : ¬t.Loud) :
    t.Named s denoted ∧ (∀ x, t.tree.stage x = w.tree.stage x) ∧
      (prog = .done → t.Answers s denoted id) := by
  replace done := rest_ok done rfl
  cases hf : w.tree.type? id with
  | none => simp [hf] at done
  | some expr =>
    have hp := has_of_type hf
    have inStart : s.type? id = some expr := by rw [← hn.shape.type?, hf]
    have noName : ∀ {t : Work}, ∀ name, s.expr? id = some (.name name) →
        ∃ binding, (t.tree.facts id).binding = some binding ∧
          s.Refers denoted id name binding := by
      intro t name isName
      rw [Tree.expr?_of_type _ inStart] at isName
      simp at isName
    have silent : ∀ {t : Work}, expr.isWord = false → t.Answers s denoted id := by
      intro t noWord
      refine ⟨fun x isOther isWord => ?_, noName⟩
      cases inStart.symm.trans isOther
      simp [noWord] at isWord
    simp only [hf] at done
    cases expr with
    | tuple es | nullable i | bad text =>
      cases done
      exact ⟨hn, fun _ => rfl, fun _ => silent rfl⟩
    | keyword keyword =>
      cases isCategory : keyword.category? with
      | none => simp [isCategory] at done
      | some category =>
        simp only [isCategory] at done
        obtain ⟨ty, mid, interned, done⟩ := bind_ok.mp done
        obtain ⟨u, hno, -⟩ := bind_pure_ok.mp done
        obtain ⟨p, ran, rfl⟩ := onPool_ok.mp interned
        obtain rfl := modifyFacts_ok.mp hno
        have he := modifyGet_ok.mp ran
        have extd := Pool.Extends.intern w.pool (.type (.category category))
        have means := Pool.means_intern_leaf w.pool (.type (.category category)) rfl
        rw [he] at extd means
        refine ⟨(hn.withPool extd.retains).note pending _ (fun _ => by rfl), fun x => ?_,
          fun _ => ⟨fun _ _ _ => ⟨ty, _, ?_, means⟩, noName⟩⟩
        · exact w.tree.stage_modify_of (fun _ => by rfl) x
        · rw [withTree_tree, withPool_tree, w.tree.facts_modify_same hp]
    | named names ps =>
      obtain ⟨ans, mid, hl, done⟩ := bind_ok.mp done
      obtain ⟨looks, means⟩ := lookupType_ok
        (fun sym mem ty ht => hn.known ty (ht ▸ hn.symbols sym mem))
        hl
      have namedNow := hn.looks looks
      have pendingNow : mid.tree.stage id ≠ .resolved := by rwa [looks.tree]
      cases ans with
      | type ty =>
        obtain ⟨u, hse, -⟩ := bind_pure_ok.mp done
        obtain ⟨term, meansType⟩ := means ty rfl
        obtain ⟨namedLast, stages, hf⟩ := settleType_named namedNow (by rwa [looks.tree])
          pendingNow meansType hse
        refine ⟨namedLast, fun x => by rw [stages, looks.tree], fun _ => ⟨?_, noName⟩⟩
        exact fun _ _ _ => hf
      | notAType =>
        obtain ⟨u, reported, report, done⟩ := bind_ok.mp done
        obtain ⟨u, hs, -⟩ := bind_pure_ok.mp done
        have loud : reported.Loud := loud_of_reportAt report
        rw [← setStage_ok.mp hs] at quiet
        exact absurd loud quiet
      | unknown | waiting =>
        obtain ⟨u, deferred, rfl⟩ := bind_pure_ok.mp done
        obtain ⟨namedLast, stages⟩ := deferType_named namedNow pendingNow deferred
        exact ⟨namedLast, fun x => by rw [stages, looks.tree], by simp⟩

/-- Attempting to resolve a node without a report answers what it is about once it is done. -/
theorem resolveNode_named (hn : w.Named s denoted) (pending : w.tree.stage id ≠ .resolved)
    (done : resolveNode sc id w = .ok prog t) (quiet : ¬t.Loud) :
    t.Named s denoted ∧ (∀ x, t.tree.stage x = w.tree.stage x) ∧
      (prog = .done → t.Answers s denoted id) := by
  replace done := rest_ok done rfl
  have nothing : s.type? id = none → (∀ name, s.expr? id ≠ some (.name name)) →
      w.Answers s denoted id := by
    intro noType noName
    refine ⟨fun expr ht => ?_, fun name isName => absurd isName (noName name)⟩
    simp [noType] at ht
  cases hf : w.tree.form? id with
  | none =>
    simp only [hf] at done
    cases done
    have none : s.form? id = none := by rw [← hn.shape.form, hf]
    exact ⟨hn, fun _ => rfl, fun _ => nothing (by simp [Tree.type?, none]) (by simp [Tree.expr?, none])⟩
  | some form =>
    have inStart : s.form? id = some form := by rw [← hn.shape.form, hf]
    simp only [hf] at done
    cases form with
    | type expr => exact resolveTypeName_named hn pending done quiet
    | stmt stmt =>
      cases done
      exact ⟨hn, fun _ => rfl, fun _ => nothing (by simp [Tree.type?, inStart, Form.type?])
        (by simp [Tree.expr?, inStart, Form.expr?])⟩
    | expr expr =>
      have noType : s.type? id = none := by simp [Tree.type?, inStart, Form.type?]
      have isExpr : s.expr? id = some expr := by simp [Tree.expr?, inStart, Form.expr?]
      cases expr with
      | name name =>
        obtain ⟨ans, mid, hl, done⟩ := bind_ok.mp done
        obtain ⟨looks, refers⟩ := lookupName_ok hn.symbols hl
        have namedNow := hn.looks looks
        cases ans with
        | bound binding =>
          obtain ⟨u, hno, -⟩ := bind_pure_ok.mp done
          obtain rfl := modifyFacts_ok.mp hno
          have pendingNow : mid.tree.stage id ≠ .resolved := by rwa [looks.tree]
          have hp : mid.tree.Has id := by
            rw [Tree.has_iff_lt, looks.tree, ← Tree.has_iff_lt]
            unfold Tree.Has
            cases here : w.tree.node? id with
            | none => simp [Tree.form?, here] at hf
            | some node => rfl
          refine ⟨namedNow.note pendingNow _ (fun _ => by rfl), fun x => ?_, fun _ => ⟨?_, ?_⟩⟩
          · rw [← looks.tree]
            exact mid.tree.stage_modify_of (fun _ => by rfl) x
          · simp [noType]
          · intro x isName
            obtain rfl : name = x := by
              rw [isExpr] at isName
              simpa using isName
            refine ⟨binding, by rw [withTree_tree, mid.tree.facts_modify_same hp], ?_⟩
            have h := refers binding rfl
            cases binding with
            | localDecl decl => exact (hn.shape.localOf id name).symm.trans h
            | constant ty v => exact ⟨h.1, (hn.shape.localOf id name).symm.trans h.2⟩
            | type ty | space name => trivial
        | unknown | waiting =>
          cases done
          exact ⟨namedNow, fun x => by rw [looks.tree], by simp⟩
      | literal literal | paren i | unary op arg | binary op lhs rhs | tuple ty es =>
        cases done
        exact ⟨hn, fun _ => rfl, fun _ => nothing noType (by simp [isExpr])⟩

theorem stage_begun (tree : Tree) (id : NodeId) :
    (tree.setStage id .resolving).stage id ≠ .resolved := by
  by_cases hp : tree.Has id
  · rw [tree.stage_setStage_same hp]
    simp
  · rw [Tree.stage, Tree.facts_of_not_has _ (by rwa [Tree.has_setStage])]
    simp

/-- Visiting a node resolves it or leaves it for later, and no other node changes its stage. -/
theorem visit_named (hn : w.Named s denoted) (done : visit sc id w = .ok prog t) (quiet : ¬t.Loud) :
    t.Named s denoted ∧ (∀ x, x ≠ id → t.tree.stage x = w.tree.stage x) ∧
      (prog = .done → w.tree.Has id → t.tree.stage id = .resolved) := by
  obtain ⟨u, begun, hs, done⟩ := bind_ok.mp done
  cases hs
  obtain ⟨progress', mid, ran, done⟩ := bind_ok.mp done
  replace done := rest_ok done rfl
  have begun : (w.withTree (w.tree.setStage id .resolving)).Named s denoted :=
    hn.setStage rfl (by simp)
  split at done
  · rename_i finished
    obtain ⟨u, hs, rfl⟩ := bind_pure_ok.mp done
    obtain rfl := setStage_ok.mp hs
    obtain ⟨namedNow, stages, ans⟩ :=
      resolveNode_named begun (stage_begun w.tree id) ran quiet
    refine ⟨namedNow.setStage rfl fun _ => ans finished.1, fun node ne => ?_, ?_⟩
    · rw [withTree_tree, mid.tree.stage_setStage_ne ne, stages, withTree_tree, w.tree.stage_setStage_ne ne]
    · intro _ hp
      rw [withTree_tree, mid.tree.stage_setStage_same]
      rw [namedNow.shape.has, ← hn.shape.has]
      exact hp
  · rename_i unfinished
    cases done
    obtain ⟨namedNow, stages, ans⟩ :=
      resolveNode_named begun (stage_begun w.tree id) ran quiet
    refine ⟨namedNow, fun node ne => ?_, fun isDone => ?_⟩
    · rw [stages, withTree_tree, w.tree.stage_setStage_ne ne]
    · refine absurd ⟨isDone, ?_⟩ unfinished
      have early := namedNow.early id
      intro hx
      simp [hx, Stage.isUpTo, Stage.rank] at early

end Resolution

end TreeCompiler
