import TreeCompiler.Proofs.Placeholders
import TreeCompiler.Proofs.SoughtTypes

/-!
# Names that are sought

A visit resolves a node exactly if the rules for names grant it, given the nodes resolved so far. A
node that is put off waits with its placeholder, and nothing stops the visit.
-/

namespace TreeCompiler

open Step

variable {ty : ConstId} {names : List String} {ps : List NodeId}

namespace SymbolTable

variable {table : SymbolTable} {sc name : String}

/-- A table that holds nothing back answers a lookup at once and stays as it is. -/
theorem lookup_of_unheld (unheld : ∀ sym ∈ table.symbols, sym.heldBack = 0) :
    (table.lookup sc name).2 = table ∧ (table.lookup sc name).1 ≠ .notYet := by
  unfold lookup
  cases hf : table.find? (table.target sc name) with
  | none => simp [hf]
  | some sym => simp [hf, unheld sym (List.mem_of_find?_eq_some hf)]

end SymbolTable

namespace Tree

/-- The nodes that are resolved. -/
def resolvedNodes (tree : Tree) : Set NodeId := { id | tree.stage id = .resolved }

/-- A unit whose names can be sought: types stand where types are called for, keywords among them
are categories, and only text that is no type is incomplete. -/
structure Searchable (tree : Tree) (r : NodeId) : Prop where
  linked : tree.IsLinked r
  present : tree.Has r
  typed : tree.HoldsTypes r
  keywords : ∀ id word, tree.Below r id → tree.type? id = some (.keyword word) → word.category?.isSome
  complete : ∀ id, tree.Below r id → tree.completable id = false → ∃ text, tree.type? id = some (.bad text)

/-- The keywords of a unit are resolved. -/
def WordsDone (s now : Tree) (r : NodeId) : Prop :=
  ∀ id word, s.Below r id → s.type? id = some (.keyword word) → now.stage id = .resolved

variable {tree s now : Tree} {r id : NodeId} {name : String}

theorem localAt?_of_type {ty : TypeExpr} (hf : tree.type? id = some ty) :
    tree.localAt? id = none := by
  simp [localAt?, Tree.expr?_of_type _ hf]

theorem plainName?_of_type (hf : tree.type? id = some (.named names ps)) :
    tree.plainName? id = match names with | [name] => some name | _ => none := by
  simp only [plainName?, form?_of_type hf]
  match names with
  | [] | [_] | _ :: _ :: _ => rfl

theorem unresolvedName_of_type (hf : tree.type? id = some (.named names ps)) :
    tree.unresolvedName id = Text.joinDots names := by
  simp [unresolvedName, form?_of_type hf, TypeExpr.qualifiedName?]

theorem isDeferrable_of_isNamed (hn : tree.isNamed id = true) : tree.isDeferrable id = true := by
  unfold isNamed at hn
  split at hn
  · rename_i names ps hf
    simp [isDeferrable, form?_of_type hf]
  · simp at hn

theorem plainName?_of_name (hf : tree.expr? id = some (.name name)) :
    tree.plainName? id = if Text.hasDot name then none else some name := by
  simp [plainName?, tree.form?_of_expr hf]

theorem localAt?_of_name (hf : tree.expr? id = some (.name name)) :
    tree.localAt? id = tree.localOf id name := by
  simp [localAt?, hf]

theorem unresolvedName_of_name (hf : tree.expr? id = some (.name name)) :
    tree.unresolvedName id = name := by
  simp [unresolvedName, tree.form?_of_expr hf]

theorem IsLinked.below_typedef (lk : tree.IsLinked r) (hb : tree.Below r id)
    {typedef : NodeId} (hv : tree.findTypedef id name = some typedef) :
    tree.Below r typedef ∧ ∃ title ty, tree.stmt? typedef = some (.typedef title ty) := by
  obtain ⟨block, around, stmts, ty, isBlock, mem, defined⟩ := findTypedef_eq_some hv
  have above := (lk.below_of_mem_ancestors hb (ancestorsInMethod_subset around)).1
  have hi : typedef ∈ tree.children block := by
    simpa [tree.children_of_stmt isBlock, Stmt.children] using mem
  exact ⟨above.child hi, name, ty, defined⟩

theorem WordsDone.worded (done : s.WordsDone now r) {ty : NodeId} (hb : s.Below r ty)
    (spelled : ∀ id word, s.type? id = some (.keyword word) → now.stage id = .resolved →
      (now.facts id).type.isSome) : s.Worded now ty :=
  fun part word under hf => spelled part word hf (done part word (hb.trans under) hf)

end Tree

/-! ### Lookups -/

namespace Resolution

open WorkM

variable {s : Tree} {table : SymbolTable} {sc name : String} {w : Work} {r id : NodeId}

theorem lookup_ok_of_unheld (seeks : w.Seeks s table sc)
    (unheld : ∀ sym ∈ table.symbols, sym.heldBack = 0) (name : String) :
    lookup sc name w = .ok (table.lookup sc name).1 w := by
  refine modifyGet_ok.mpr ?_
  have kept : (table.lookup sc name).2 = table := (SymbolTable.lookup_of_unheld unheld).1
  have eq : { w with symbols := table } = w := by rw [← seeks.symbols]
  rw [seeks.symbols]
  exact Prod.ext rfl ((congrArg (fun symbols => { w with symbols }) kept).trans eq)

theorem ends_typedefType_of_visible (unit : s.Searchable r) (hb : s.Below r id)
    (noLocal : s.localAt? id = none) (hp : s.plainName? id = some name) {typedef : NodeId}
    (hv : s.findTypedef id name = some typedef) (seeks : w.Seeks s table sc) :
    Ends (typedefType typedef) w fun type? t => w.Grown t ∧
      (∀ got, type? = some got → (∃ term, t.pool.Means got term) ∧
        s.Grants table sc w.tree.resolvedNodes id) ∧ (type? = none → s.WordsDone w.tree r →
        ¬s.Grants table sc w.tree.resolvedNodes id) := by
  obtain ⟨hi, title, ty, defined⟩ := unit.linked.below_typedef hb hv
  have aliased : s.AliasOf id ty := ⟨noLocal, name, title, typedef, hp, hv, defined⟩
  have mem : ty ∈ s.children typedef := by
    simp [s.children_of_stmt defined, Stmt.children]
  have ends := ends_typedefType unit.linked unit.present unit.typed hi defined seeks
  refine ends.imp fun type? t kept => ⟨kept.1, fun ty here => ?_, ?_⟩
  · obtain ⟨means, whole⟩ := kept.2.1 ty here
    exact ⟨means, aliased.grants_iff.mpr ⟨whole.named, whole.clean⟩⟩
  · intro none done granted
    obtain ⟨hn, clean⟩ := aliased.grants_iff.mp granted
    exact kept.2.2 none ⟨hn, clean⟩
      (done.worded (hi.child mem) fun id word => (seeks.noted id).spelled word)

/-- What the answer about a type name says of its node. -/
def TellsType (s : Tree) (table : SymbolTable) (sc : String) (r id : NodeId) (now : Tree)
    (p : Pool) : TypeLookup → Prop
  | .type ty => (∃ term, p.Means ty term) ∧ s.Grants table sc now.resolvedNodes id
  | .notAType => ∀ hk, ¬s.Grants table sc hk id
  | .unknown => s.WordsDone now r → ¬s.Grants table sc now.resolvedNodes id
  | .waiting => False

/-- A type name is found exactly if it is granted. -/
theorem ends_lookupType (unit : s.Searchable r)
    (unheld : ∀ sym ∈ table.symbols, sym.heldBack = 0) (hb : s.Below r id)
    (ht : s.type? id = some (.named names ps)) (seeks : w.Seeks s table sc) :
    Ends (lookupType sc id names) w fun ans t => w.Grown t ∧
      TellsType s table sc r id w.tree t.pool ans := by
  have noLocal := Tree.localAt?_of_type ht
  have plainName := Tree.plainName?_of_type ht
  have isNamed : s.isNamed id = true := by simp [Tree.isNamed, ht]
  have asks : s.isDeferrable id = true := by simp [Tree.isDeferrable, Tree.form?_of_type ht]
  -- a symbol answers for a name that means nothing in the unit
  have sym : ∀ {full : String}, full = Text.joinDots names → s.MeansOutside id →
      Ends (lookupTypeSymbol sc full) w fun ans t => w.Grown t ∧
        TellsType s table sc r id w.tree t.pool ans := by
    rintro full rfl outside
    have granted : ∀ hk, s.Grants table sc hk id ↔ _ := fun hk => outside.grants_iff
    rw [Tree.unresolvedName_of_type ht] at granted
    refine .after (lookup_ok_of_unheld seeks unheld _) ?_
    cases got : (table.lookup sc (Text.joinDots names)).1 with
    | found comp =>
      simp only [got, Lookup.found.injEq] at granted
      cases comp with
      | type ty =>
        obtain ⟨sym, mem, isSymbol⟩ := SymbolTable.lookup_found got
        refine .pure ⟨.refl w, seeks.known sym mem ty isSymbol, ?_⟩
        exact (granted _).mpr ⟨_, rfl, fun _ => ⟨ty, rfl⟩⟩
      | constant ty v | space name =>
        refine .pure ⟨.refl w, fun hk h => ?_⟩
        obtain ⟨comp, rfl, fits⟩ := (granted hk).mp h
        obtain ⟨ty, eq⟩ := fits isNamed
        simp at eq
    | notFound =>
      refine .pure ⟨.refl w, fun _ h => ?_⟩
      obtain ⟨comp, eq, -⟩ := (granted _).mp h
      simp [got] at eq
    | notYet => exact absurd got (SymbolTable.lookup_of_unheld unheld).2
  rcases names with _ | ⟨name, _ | ⟨_, _⟩⟩
  case nil => exact sym rfl ⟨asks, noLocal, by simp [plainName], by simp [plainName]⟩
  case cons.cons => exact sym rfl ⟨asks, noLocal, by simp [plainName], by simp [plainName]⟩
  case cons.nil =>
    refine .after rfl ?_
    rw [seeks.shape.findTypedef]
    cases hv : s.findTypedef id name with
    | some typedef =>
      refine (ends_typedefType_of_visible unit hb noLocal plainName hv seeks).bind
        fun type? mid kept => ?_
      obtain ⟨hg, got, missing⟩ := kept
      cases type? with
      | some ty => exact .pure ⟨hg, got ty rfl⟩
      | none => exact .pure ⟨hg, missing rfl⟩
    | none =>
      dsimp only
      split
      · rename_i builtin
        refine .of_ok (map_ok.mpr ⟨_, intern_ok w _, rfl⟩) ⟨⟨_, Pool.Extends.intern _ _, rfl⟩, ?_⟩
        refine ⟨⟨_, Pool.means_intern_leaf w.pool (.type (.named name)) rfl⟩, ?_⟩
        exact .ofBuiltin noLocal plainName hv (by simpa using builtin)
      · rename_i x
        refine sym rfl ⟨asks, noLocal, ?_, ?_⟩
        · intro got eq
          obtain rfl : name = got := by simpa [plainName] using eq
          exact hv
        · intro got eq
          obtain rfl : name = got := by simpa [plainName] using eq
          simpa using x

/-- What the answer about a name says of its node. -/
def TellsName (s : Tree) (table : SymbolTable) (sc : String) (r id : NodeId) (now : Tree) :
    NameLookup → Prop
  | .bound _ => s.Grants table sc now.resolvedNodes id
  | .unknown => s.WordsDone now r → ¬s.Grants table sc now.resolvedNodes id
  | .waiting => False

/-- A name that means nothing in the unit is found exactly if there is a symbol of that name. -/
theorem ends_lookupSymbol (unheld : ∀ sym ∈ table.symbols, sym.heldBack = 0)
    (isName : s.expr? id = some (.name name)) (outside : s.MeansOutside id)
    (seeks : w.Seeks s table sc) : Ends (lookupSymbol sc name) w fun ans t => w.Grown t ∧
      TellsName s table sc r id w.tree ans := by
  have granted : ∀ hk, s.Grants table sc hk id ↔ _ := fun hk => outside.grants_iff
  rw [Tree.unresolvedName_of_name isName] at granted
  refine .after (lookup_ok_of_unheld seeks unheld _) ?_
  cases hf : (table.lookup sc name).1 with
  | found comp =>
    refine .pure ⟨.refl w, (granted _).mpr ⟨comp, hf, fun isNamed => ?_⟩⟩
    simp [Tree.isNamed, type?_eq_none_of_expr isName] at isNamed
  | notFound =>
    refine .pure ⟨.refl w, fun _ h => ?_⟩
    obtain ⟨comp, eq, -⟩ := (granted _).mp h
    simp [hf] at eq
  | notYet => exact absurd hf (SymbolTable.lookup_of_unheld unheld).2

/-- A name is found exactly if it is granted. -/
theorem ends_lookupName (unit : s.Searchable r)
    (unheld : ∀ sym ∈ table.symbols, sym.heldBack = 0) (hb : s.Below r id)
    (isName : s.expr? id = some (.name name)) (seeks : w.Seeks s table sc) :
    Ends (lookupName sc id name) w fun ans t => w.Grown t ∧
      TellsName s table sc r id w.tree ans := by
  have plainName := Tree.plainName?_of_name isName
  have localAt := Tree.localAt?_of_name isName
  have asks : s.isDeferrable id = true := by simp [Tree.isDeferrable, s.form?_of_expr isName]
  unfold lookupName
  split
  · rename_i dotted
    rw [if_pos dotted] at plainName
    have noLocal : s.localAt? id = none := by simp [localAt, Tree.localOf, dotted]
    exact ends_lookupSymbol unheld isName ⟨asks, noLocal, by simp [plainName], by simp [plainName]⟩ seeks
  · rename_i undotted
    rw [if_neg undotted] at plainName
    have localAt : s.localAt? id = s.findLocal id name := by
      rw [localAt, Tree.localOf, if_neg undotted]
    unfold lookupInUnit
    rw [bind_assoc]
    refine .after rfl ?_
    rw [seeks.shape.findLocal, seeks.shape.findTypedef]
    cases hd : s.findLocal id name with
    | some decl => exact .pure ⟨.refl w, .ofLocal (localAt.trans hd)⟩
    | none =>
      have noLocal := localAt.trans hd
      cases hv : s.findTypedef id name with
      | some typedef =>
        rw [bind_assoc]
        refine (ends_typedefType_of_visible unit hb noLocal plainName hv seeks).bind
          fun type? mid kept => ?_
        obtain ⟨hg, hf, missing⟩ := kept
        cases type? with
        | some ty => exact .pure ⟨hg, (hf ty rfl).2⟩
        | none => exact .pure ⟨hg, missing rfl⟩
      | none =>
        dsimp only
        split
        · rename_i builtin
          rw [bind_assoc]
          refine .after (intern_ok w _) (.pure ⟨⟨_, Pool.Extends.intern _ _, rfl⟩, ?_⟩)
          exact .ofBuiltin noLocal plainName hv (by simpa using builtin)
        · rename_i x
          refine ends_lookupSymbol unheld isName ⟨asks, noLocal, ?_, ?_⟩ seeks
          · intro hf eq
            cases plainName.symm.trans eq
            exact hv
          · intro hf eq
            cases plainName.symm.trans eq
            simpa using x

end Resolution

/-! ### Visits -/

namespace Work

variable {s : Tree} {w t : Work} {id : NodeId}

theorem noted_of_resolved {term : Term} (hn : s.isNamed id = true)
    (res : t.tree.stage id = .resolved) (hf : (t.tree.facts id).type = some ty)
    (means : t.pool.Means ty term) : t.Noted s id := by
  have noWord : ∀ word, s.type? id ≠ some (.keyword word) := by
    intro word isWord
    simp [Tree.isNamed, isWord] at hn
  exact ⟨fun waits => absurd res waits.unresolved, fun _ _ => ⟨ty, term, hf, means⟩,
    fun word isWord => absurd isWord (noWord word), fun word isWord => absurd isWord (noWord word)⟩

theorem noted_of_plain (hp : s.isNamed id = false)
    (noWord : ∀ word, s.type? id ≠ some (.keyword word)) : t.Noted s id :=
  ⟨fun waits => by simp [waits.named] at hp, fun hn => by simp [hn] at hp,
    fun word isWord => absurd isWord (noWord word), fun word isWord => absurd isWord (noWord word)⟩

theorem noted_of_waiting {name : String} (waits : s.Waits t.tree id)
    (hf : (t.tree.facts id).type = some ty)
    (ho : t.pool.entry? ty = some (.placeholder name none)) : t.Noted s id := by
  have noWord : ∀ word, s.type? id ≠ some (.keyword word) := by
    intro word isWord
    have hn := waits.named
    simp [Tree.isNamed, isWord] at hn
  refine ⟨fun _ x eq => ⟨name, ?_⟩, fun _ res => absurd res waits.unresolved,
    fun word isWord => absurd isWord (noWord word), fun word isWord => absurd isWord (noWord word)⟩
  rwa [← Option.some.inj (hf.symm.trans eq)]

/-- A change of what is known about a node, with a pool that keeps what it had. -/
theorem alters_modifyFacts (f : Facts → Facts) {p : Pool} (extd : p.Extends w.pool) :
    w.Alters id none ((w.withPool p).withTree (w.tree.modifyFacts id f)) :=
  ⟨.modifyFacts _ _ _, rfl, fun _ ne => w.tree.facts_modify_ne ne f,
    extd.retains, fun _ _ ho _ => extd.holds _ _ ho⟩

theorem Alters.setStage {filled : Option ConstId} (alters : w.Alters id filled t) (stage : Stage) :
    w.Alters id filled (t.withTree (t.tree.setStage id stage)) where
  shape := by
    rw [withTree_tree, Tree.setStage]
    exact alters.shape.trans (.modifyFacts _ _ _)
  symbols := alters.symbols
  facts x ne :=
    (t.tree.facts_modify_ne ne _).trans (alters.facts x ne)
  retains := alters.retains
  opens := alters.opens

theorem Alters.refl (w : Work) (id : NodeId) : w.Alters id none w :=
  ⟨.refl _, rfl, fun _ _ => rfl, .refl _, fun _ _ ho _ => ho⟩

variable {table : SymbolTable} {sc : String}

/-- A node that can be resolved is, once what is noted about it is right. -/
theorem Seeks.resolve {filled : Option ConstId} (seeks : w.Seeks s table sc)
    (alters : w.Alters id filled t)
    (fills : filled ≠ none → s.Waits w.tree id ∧ (w.tree.facts id).type = filled)
    (sink : t.sink = w.sink) (hp : s.Has id)
    (hn : (t.withTree (t.tree.setStage id .resolved)).Noted s id)
    (able : s.isDeferrable id = true → id ∈ s.resolvable table sc) :
    (t.withTree (t.tree.setStage id .resolved)).Seeks s table sc := by
  have stage : (t.tree.setStage id .resolved).stage id = .resolved :=
    t.tree.stage_setStage_same (((seeks.shape.trans alters.shape).has id).mpr hp) _
  refine seeks.alter (alters.setStage .resolved) (sink.symm ▸ seeks.uncapped) fills ?_ hn
    (fun waits => absurd stage waits.unresolved) (fun asks _ => able asks) fun hx => ?_
  · simp [stage]
  · simp [stage] at hx

/-- A node that waits is visited. -/
theorem Seeks.begin (seeks : w.Seeks s table sc) (hp : s.Has id)
    (unresolved : w.tree.stage id ≠ .resolved) (unfailed : w.tree.stage id ≠ .failed) :
    (w.withTree (w.tree.setStage id .resolving)).Seeks s table sc := by
  have stage : (w.tree.setStage id .resolving).stage id = .resolving :=
    w.tree.stage_setStage_same ((seeks.shape.has id).mpr hp) _
  have ty : ((w.tree.setStage id .resolving).facts id).type = (w.tree.facts id).type :=
    w.tree.facts_modify_of Facts.type (by intro _; rfl) id id
  refine seeks.alter ((Alters.refl w id).setStage .resolving) seeks.uncapped (by simp)
    (by simp [stage]) ⟨fun waits hf here => ?_, fun _ res => ?_, fun word isWord hf here => ?_,
      fun _ _ res => ?_⟩ (fun waits x hf ne waitsToo here => ?_)
    (fun _ res => ?_) fun hx => ?_
  · exact (seeks.noted id).waiting ⟨waits.named, unresolved, unfailed⟩ hf (ty.symm.trans here)
  · simp [stage] at res
  · exact (seeks.noted id).keyword word isWord hf (ty.symm.trans here)
  · simp [stage] at res
  · intro eq
    exact ne (seeks.apart x id hf waitsToo ⟨waits.named, unresolved, unfailed⟩ eq (ty.symm.trans here))
  · simp [stage] at res
  · simp [stage] at hx

/-- A named type that a symbol other than a type answers for has failed. -/
theorem Seeks.fail (seeks : w.Seeks s table sc) (hp : s.Has id)
    (hn : s.isNamed id = true) (refused : ∀ hk, ¬s.Grants table sc hk id)
    (code : Code) (args : List String) (span : Span) :
    ((w.reported (.errorAt code args span)).withTree (w.tree.setStage id .failed)).Seeks s table sc := by
  have stage : (w.tree.setStage id .failed).stage id = .failed :=
    w.tree.stage_setStage_same ((seeks.shape.has id).mpr hp) _
  have alters : w.Alters id none (w.reported (.errorAt code args span)) :=
    ⟨.refl _, rfl, fun _ _ => rfl, .refl _, fun _ _ ho _ => ho⟩
  have noWord : ∀ word, s.type? id ≠ some (.keyword word) := by
    intro word isWord
    simp [Tree.isNamed, isWord] at hn
  refine seeks.alter (alters.setStage .failed) (seeks.uncapped.reportError code args span) (by simp)
    (by simp [stage]) ⟨fun waits => absurd stage waits.unfailed, fun _ res => ?_,
      fun word isWord => absurd isWord (noWord word), fun word isWord => absurd isWord (noWord word)⟩
    (fun waits => absurd stage waits.unfailed) (fun _ res => ?_) fun _ => ⟨hn, refused⟩
  · simp [stage] at res
  · simp [stage] at res

/-- What the resolved nodes grant can be resolved. -/
theorem Seeks.able (seeks : w.Seeks s table sc)
    (granted : s.Grants table sc w.tree.resolvedNodes id) : id ∈ s.resolvable table sc := by
  refine Tree.mem_resolvable (granted.imp fun ty part _ _ hn res => ?_)
  exact seeks.sound part (Tree.isDeferrable_of_isNamed hn) res

end Work

namespace Resolution

open WorkM

variable {s : Tree} {table : SymbolTable} {sc name : String} {w : Work} {r id : NodeId}

theorem ends_settleType (seeks : w.Seeks s table sc) (waits : s.Waits w.tree id)
    (hp : s.Has id) {term : Term} (means : w.pool.Means ty term)
    (able : id ∈ s.resolvable table sc) : Ends (settleType id ty) w fun _ t =>
      (∀ x, t.tree.stage x = w.tree.stage x) ∧
        (t.withTree (t.tree.setStage id .resolved)).Seeks s table sc := by
  have here : w.tree.Has id := (seeks.shape.has id).mpr hp
  have typeOf : ∀ tree : Tree, ((tree.setStage id .resolved).facts id).type = (tree.facts id).type :=
    fun tree => tree.facts_modify_of Facts.type (by intro _; rfl) id id
  refine .after rfl ?_
  cases he : (w.tree.facts id).type with
  | none =>
    refine Ends.of_ok (a := ()) (modifyFacts_ok.mpr rfl) ⟨fun x => ?_, ?_⟩
    · exact w.tree.stage_modify_of (by intro _; rfl) x
    · refine seeks.resolve (Work.alters_modifyFacts _ (.refl _))
        (by simp) rfl hp ?_ fun _ => able
      refine Work.noted_of_resolved waits.named ?_ ?_ means
      · exact Tree.stage_setStage_same _ (by simpa using here) _
      · rw [Work.withTree_tree, typeOf, Work.withTree_tree, w.tree.facts_modify_same here]
  | some hole =>
    obtain ⟨name, ho⟩ := (seeks.noted id).waiting waits hole he
    obtain ⟨twin, p, ranTwin, extd, spells⟩ := means.canonical
    have ne : twin ≠ hole := by
      rintro rfl
      exact Pool.not_means_of_open (extd.holds _ _ ho) spells.means
    have filled := Pool.fill_of_open ho ranTwin ne
    obtain ⟨retains, meansFilled⟩ := Pool.means_of_fill filled means
    refine .after (readPool_ok.mpr ⟨Pool.entry_of_placeholder ho, rfl⟩) ?_
    have alters : w.Alters id (some hole) (w.withPool (p.setTarget hole twin)) := by
      refine ⟨.refl _, rfl, fun _ _ => rfl, retains, fun x name otherOpen isOther => ?_⟩
      rw [Work.withPool_pool, Pool.entry?_setTarget (extd.holds _ _ ho),
        if_neg (by simpa using isOther)]
      exact extd.holds _ _ otherOpen
    refine .of_ok (onPool_ok.mpr ⟨_, filled, rfl⟩) ⟨fun _ => rfl, ?_⟩
    refine seeks.resolve alters (fun _ => ⟨waits, he⟩) rfl hp ?_ fun _ => able
    refine Work.noted_of_resolved waits.named ?_ ?_ meansFilled
    · exact Tree.stage_setStage_same _ here _
    · rw [Work.withTree_tree, typeOf, Work.withPool_tree, he]

theorem ends_deferType (seeks : w.Seeks s table sc) (waits : s.Waits w.tree id)
    (hp : s.Has id) (name : String) : Ends (deferType id name) w fun _ t =>
      (∀ x, t.tree.stage x = w.tree.stage x) ∧ t.Seeks s table sc := by
  have here : w.tree.Has id := (seeks.shape.has id).mpr hp
  refine .after rfl ?_
  split
  · let p := (w.pool.addPlaceholder name).2
    have extd : p.Extends w.pool := .addPlaceholder w.pool name
    have pushed : onPool (PoolM.newPlaceholder name) w = .ok ⟨w.pool.size⟩ (w.withPool p) :=
      onPool_ok.mpr ⟨p, modifyGet_ok.mpr rfl, rfl⟩
    refine .after pushed (Ends.of_ok (a := ()) (modifyFacts_ok.mpr rfl) ⟨fun x => ?_, ?_⟩)
    · exact w.tree.stage_modify_of (by intro _; rfl) x
    · let f : Facts → Facts := fun facts => { facts with type := some ⟨w.pool.size⟩ }
      have stage : (w.tree.modifyFacts id f).stage id = w.tree.stage id :=
        w.tree.stage_modify_of (by intro _; rfl) id
      have hn : ((w.tree.modifyFacts id f).facts id).type = some ⟨w.pool.size⟩ := by
        rw [w.tree.facts_modify_same here]
      have ho : p.entry? ⟨w.pool.size⟩ = some (.placeholder name none) := by
        rw [Pool.entry?_of_push rfl, if_pos rfl]
      refine seeks.alter (Work.alters_modifyFacts f extd) seeks.uncapped (by simp) ?_ ?_ ?_ ?_ ?_
      · exact stage ▸ seeks.early id
      · exact Work.noted_of_waiting ⟨waits.named, stage ▸ waits.unresolved, stage ▸ waits.unfailed⟩ hn
          ho
      · intro _ x ty ne waitsToo hf foundToo
        cases hn.symm.trans hf
        obtain ⟨name, ho⟩ := (seeks.noted x).waiting waitsToo _ foundToo
        have hi := Pool.lt_size_of_found ho
        exact absurd hi (Nat.lt_irrefl _)
      · intro _ res
        exact absurd (stage.symm.trans res) waits.unresolved
      · intro hx
        exact absurd (stage.symm.trans hx) waits.unfailed
  · exact .pure ⟨fun _ => rfl, seeks⟩

/-- What an attempt to resolve a node comes to: the node is ready to be marked as resolved, has
failed, or is not granted yet. -/
def Tried (s : Tree) (table : SymbolTable) (sc : String) (r id : NodeId) (b : Tree) :
    Progress → Work → Prop
  | .done, t => t.tree.stage id = .failed ∧ t.Seeks s table sc ∨
      t.tree.stage id ≠ .failed ∧ (t.withTree (t.tree.setStage id .resolved)).Seeks s table sc
  | .deferred, t => t.Seeks s table sc ∧ t.tree.stage id = b.stage id ∧
      s.isDeferrable id = true ∧
      (s.WordsDone b r → ¬s.Grants table sc b.resolvedNodes id)
  | .waiting, _ => False

theorem ends_resolveTypeName (unit : s.Searchable r)
    (unheld : ∀ sym ∈ table.symbols, sym.heldBack = 0) (hb : s.Below r id)
    {ty : TypeExpr} (ht : s.type? id = some ty) (seeks : w.Seeks s table sc)
    (unresolved : w.tree.stage id ≠ .resolved) (unfailed : w.tree.stage id ≠ .failed) :
    Ends (resolveTypeName sc id) w fun prog t =>
      (∀ x, x ≠ id → t.tree.stage x = w.tree.stage x) ∧
        Tried s table sc r id w.tree prog t := by
  have hp : s.Has id := has_of_type ht
  have here : w.tree.Has id := (seeks.shape.has id).mpr hp
  have hu : s.isNamed id = false → (∀ word, s.type? id ≠ some (.keyword word)) →
      s.isDeferrable id = false → Tried s table sc r id w.tree .done w := by
    intro hpl noWord settles
    refine .inr ⟨unfailed, seeks.resolve (.refl w id) (by simp) rfl hp ?_ (by simp [settles])⟩
    exact Work.noted_of_plain hpl noWord
  refine .after rfl ?_
  rw [seeks.shape.type?, ht]
  cases ty with
  | tuple es | nullable i | bad text =>
    refine .pure ⟨fun _ _ => rfl, hu ?_ ?_ ?_⟩
    · simp [Tree.isNamed, ht]
    · simp [ht]
    · simp [Tree.isDeferrable, Tree.form?_of_type ht]
  | keyword word =>
    obtain ⟨category, isCategory⟩ := Option.isSome_iff_exists.mp (unit.keywords id word hb ht)
    simp only [isCategory]
    let k : Constant := .type (.category category)
    let f : Facts → Facts := fun facts => { facts with type := some (w.pool.intern k).1 }
    have stages : ∀ x, (w.tree.modifyFacts id f).stage x = w.tree.stage x :=
      w.tree.stage_modify_of (by intro _; rfl)
    refine .pure ⟨fun x _ => stages x, .inr ⟨?_, ?_⟩⟩
    · exact stages id ▸ unfailed
    · refine seeks.resolve (Work.alters_modifyFacts f (Pool.Extends.intern w.pool k)) (by simp)
        rfl hp ?_ (by simp [Tree.isDeferrable, Tree.form?_of_type ht])
      have hno : (((w.tree.modifyFacts id f).setStage id .resolved).facts id).type =
          some (w.pool.intern k).1 := by
        rw [Tree.setStage, Tree.facts_modify_same _ (by simpa using here),
          w.tree.facts_modify_same here]
      have means := Pool.means_intern_leaf w.pool k rfl
      refine ⟨fun waits => ?_, fun hn => ?_, fun _ _ ty hf => ?_, fun _ _ _ => ?_⟩
      · have hn := waits.named
        simp [Tree.isNamed, ht] at hn
      · simp [Tree.isNamed, ht] at hn
      · cases hno.symm.trans hf
        exact ⟨_, means⟩
      · exact Option.isSome_iff_exists.mpr ⟨_, hno⟩
  | named names ps =>
    have isNamed : s.isNamed id = true := by simp [Tree.isNamed, ht]
    refine (ends_lookupType unit unheld hb ht seeks).bind fun ans mid kept => ?_
    obtain ⟨hg, tells⟩ := kept
    have seeksNow := seeks.grown hg
    have waits : s.Waits mid.tree id := by
      rw [hg.tree]
      exact ⟨isNamed, unresolved, unfailed⟩
    cases ans with
    | type ty =>
      obtain ⟨⟨term, means⟩, granted⟩ := tells
      refine (ends_settleType seeksNow waits hp means (seeks.able granted)).bind
        fun _ t kept => .pure ⟨fun x _ => ?_, .inr ⟨?_, kept.2⟩⟩
      · rw [kept.1, hg.tree]
      · rw [kept.1]
        exact waits.unfailed
    | notAType =>
      refine Ends.after (a := ()) (reportAt_ok.mpr rfl) ?_
      refine Ends.after (a := ()) (setStage_ok.mpr rfl) ?_
      refine .pure ⟨fun x ne => ?_, .inl ⟨?_, seeksNow.fail hp isNamed tells _ _ _⟩⟩
      · rw [Work.withTree_tree, Work.reported_tree, mid.tree.stage_setStage_ne ne, hg.tree]
      · exact Tree.stage_setStage_same _ ((seeksNow.shape.has id).mpr hp) _
    | unknown =>
      refine (ends_deferType seeksNow waits hp _).bind fun _ t kept =>
        .pure ⟨fun x _ => ?_, kept.2, ?_, Tree.isDeferrable_of_isNamed isNamed, tells⟩
      · rw [kept.1, hg.tree]
      · rw [kept.1, hg.tree]
    | waiting => exact absurd tells (by simp [TellsType])

theorem ends_resolveNode (unit : s.Searchable r)
    (unheld : ∀ sym ∈ table.symbols, sym.heldBack = 0) (hb : s.Below r id)
    (seeks : w.Seeks s table sc) (unresolved : w.tree.stage id ≠ .resolved)
    (unfailed : w.tree.stage id ≠ .failed) : Ends (resolveNode sc id) w fun prog t =>
      (∀ x, x ≠ id → t.tree.stage x = w.tree.stage x) ∧
        Tried s table sc r id w.tree prog t := by
  have hp : s.Has id := s.has_iff_lt.mpr (unit.linked.index_lt_size hb unit.present)
  have hu : s.type? id = none → s.isDeferrable id = false →
      Tried s table sc r id w.tree .done w := by
    intro noType settles
    refine .inr ⟨unfailed, seeks.resolve (.refl w id) (by simp) rfl hp ?_ (by simp [settles])⟩
    exact Work.noted_of_plain (by simp [Tree.isNamed, noType]) (by simp [noType])
  refine .after rfl ?_
  rw [seeks.shape.form]
  cases hf : s.form? id with
  | none =>
    exact .pure ⟨fun _ _ => rfl, hu (by simp [Tree.type?, hf]) (by
      simp [Tree.isDeferrable, hf])⟩
  | some form =>
    cases form with
    | type ty =>
      have ht : s.type? id = some ty := by simp [Tree.type?, hf, Form.type?]
      exact ends_resolveTypeName unit unheld hb ht seeks unresolved unfailed
    | stmt stmt =>
      exact .pure ⟨fun _ _ => rfl, hu (by simp [Tree.type?, hf, Form.type?]) (by
        simp [Tree.isDeferrable, hf])⟩
    | expr expr =>
      have noType : s.type? id = none := by simp [Tree.type?, hf, Form.type?]
      cases expr with
      | literal literal | paren i | unary op arg | binary op lhs rhs | tuple ty es =>
        exact .pure ⟨fun _ _ => rfl, hu noType (by simp [Tree.isDeferrable, hf])⟩
      | name name =>
        have isName : s.expr? id = some (.name name) := by simp [Tree.expr?, hf, Form.expr?]
        refine (ends_lookupName unit unheld hb isName seeks).bind fun ans mid kept => ?_
        obtain ⟨hg, tells⟩ := kept
        have seeksNow := seeks.grown hg
        cases ans with
        | bound binding =>
          let f : Facts → Facts := fun facts => { facts with binding := some binding }
          have stages : ∀ x, (mid.tree.modifyFacts id f).stage x =
              w.tree.stage x := by
            intro x
            rw [mid.tree.stage_modify_of (by intro _; rfl), hg.tree]
          refine .pure ⟨fun x _ => stages x, .inr ⟨stages id ▸ unfailed, ?_⟩⟩
          refine seeksNow.resolve (Work.alters_modifyFacts f (.refl _)) (by simp) rfl hp ?_
            fun _ => seeks.able tells
          exact Work.noted_of_plain (by simp [Tree.isNamed, noType]) (by simp [noType])
        | unknown =>
          refine .pure ⟨fun x _ => by rw [hg.tree], seeksNow, by rw [hg.tree], ?_, tells⟩
          simp [Tree.isDeferrable, hf]
        | waiting => exact absurd tells (by simp [TellsName])

/-- What a visit comes to: the node is resolved or has failed, or it waits and is not granted. -/
structure Visit (s : Tree) (table : SymbolTable) (sc : String) (r id : NodeId) (b : Tree)
    (prog : Progress) (t : Work) : Prop where
  seeks : t.Seeks s table sc
  others : ∀ x, x ≠ id → t.tree.stage x = b.stage x
  prompt : prog ≠ .waiting
  done : prog = .done → t.tree.stage id = .resolved ∨ t.tree.stage id = .failed
  deferred : prog = .deferred → s.isDeferrable id = true ∧ t.tree.stage id = .resolving ∧
    (s.WordsDone b r → ¬s.Grants table sc b.resolvedNodes id)

/-- A visit to a node that waits. -/
theorem ends_visit (unit : s.Searchable r)
    (unheld : ∀ sym ∈ table.symbols, sym.heldBack = 0) (hb : s.Below r id)
    (seeks : w.Seeks s table sc) (unresolved : w.tree.stage id ≠ .resolved)
    (unfailed : w.tree.stage id ≠ .failed) :
    Ends (visit sc id) w (Visit s table sc r id w.tree) := by
  have hp : s.Has id := s.has_iff_lt.mpr (unit.linked.index_lt_size hb unit.present)
  have begun := seeks.begin hp unresolved unfailed
  let tree := w.tree.setStage id .resolving
  have oth : ∀ x, x ≠ id → tree.stage x = w.tree.stage x :=
    fun x ne => w.tree.stage_setStage_ne ne _
  have stage : tree.stage id = .resolving :=
    w.tree.stage_setStage_same ((seeks.shape.has id).mpr hp) _
  -- beginning the visit resolves nothing
  have nodes : tree.resolvedNodes = w.tree.resolvedNodes := by
    ext x
    by_cases eq : x = id
    · subst eq
      simp [Tree.resolvedNodes, stage, unresolved]
    · simp [Tree.resolvedNodes, oth x eq]
  have words : s.WordsDone w.tree r → s.WordsDone tree r := by
    intro done x word under isWord
    have res := done x word under isWord
    have ne : x ≠ id := by
      rintro rfl
      exact unresolved res
    rw [oth x ne, res]
  refine (ends_resolveNode unit unheld hb begun (by simp [tree, stage]) (by simp [tree, stage])).bind
    fun prog mid ⟨kept, attempted⟩ => ?_
  have unchanged : ∀ x, x ≠ id → mid.tree.stage x = w.tree.stage x :=
    fun x ne => (kept x ne).trans (oth x ne)
  refine .after rfl ?_
  cases prog with
  | waiting => exact absurd attempted (by simp [Tried])
  | deferred =>
    obtain ⟨seeksNow, eq, asks, refused⟩ := attempted
    refine .pure ⟨seeksNow, unchanged, by simp, by simp, fun _ => ⟨asks, eq.trans stage, ?_⟩⟩
    intro done
    exact nodes ▸ refused (words done)
  | done =>
    rcases attempted with ⟨hx, seeksNow⟩ | ⟨unfailed, seeksNow⟩
    · rw [if_neg (by simp [hx])]
      exact .pure ⟨seeksNow, unchanged, by simp, fun _ => .inr hx, by simp⟩
    · rw [if_pos ⟨rfl, unfailed⟩]
      refine Ends.after (a := ()) (setStage_ok.mpr rfl) (.pure ?_)
      refine ⟨seeksNow, fun x ne => ?_, by simp, fun _ => .inl ?_, by simp⟩
      · rw [Work.withTree_tree, mid.tree.stage_setStage_ne ne, unchanged x ne]
      · refine mid.tree.stage_setStage_same ?_ _
        have shape := seeksNow.shape.has id
        rw [Work.withTree_tree, Tree.has_setStage] at shape
        exact shape.mpr hp

end Resolution

end TreeCompiler
