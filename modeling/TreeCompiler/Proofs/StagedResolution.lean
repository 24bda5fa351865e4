import TreeCompiler.Proofs.StagedExpressions

/-!
# Stages of resolution

Sweeps visit only nodes that are not resolved yet, and what is left over can only be a name or a
named type that is not valid. So resolving the names of a unit moves no node back, wherever it ends,
however far the unit has come before.
-/

namespace TreeCompiler

open Step

/-- A node that is neither a statement nor in parentheses. -/
structure Tree.IsBare (tree : Tree) (id : NodeId) : Prop where
  plain : tree.stmt? id = none
  bare : ∀ i, tree.expr? id ≠ some (.paren i)

/-- What resolution leaves: stages in order, none of them moved back, and nothing that has become
valid. -/
structure Work.Resolves (s : Tree) (r : NodeId) (b t : Work) : Prop where
  staged : t.Staged s r
  forward : ∀ id, (b.tree.stage id).isUpTo (t.tree.stage id) = true
  unpassed : ∀ id, t.Passed id → b.Passed id

instance (s : Tree) (r : NodeId) : Trans (Work.Resolves s r) (Work.Resolves s r) (Work.Resolves s r) where
  trans he later :=
    ⟨later.staged, fun id => Stage.isUpTo_trans (he.forward id) (later.forward id),
      fun id hp => he.unpassed id (later.unpassed id hp)⟩

namespace Resolution

open WorkM Work Validation

variable {s : Tree} {r id : NodeId} {w : Work}

theorem resolves_refl (hs : w.Staged s r) : w.Resolves s r w :=
  ⟨hs, fun _ => Stage.isUpTo_refl _, fun _ hp => hp⟩

theorem isBare_of_type {ty : TypeExpr} (peels : s.Peels w.tree)
    (hf : w.tree.type? id = some ty) : s.IsBare id := by
  obtain ⟨ren, form, -⟩ := peels.forms id
  rw [Tree.type?, form] at hf
  cases here : s.form? id with
  | none => simp [here] at hf
  | some form =>
    simp only [here] at hf
    cases form with
    | type ty => exact ⟨by simp [Tree.stmt?, here, Form.stmt?], by simp [Tree.expr?, here, Form.expr?]⟩
    | stmt stmt => simp [Form.mapChildren, Form.mapChildrenM, Form.type?] at hf
    | expr expr => simp [Form.mapChildren, Form.mapChildrenM, Form.type?] at hf

theorem isBare_of_name {name : String} (peels : s.Peels w.tree)
    (hf : w.tree.expr? id = some (.name name)) : s.IsBare id := by
  obtain ⟨ren, he, -⟩ := peels.expr?_eq id
  rw [hf] at he
  obtain ⟨orig, here, eq⟩ := Option.map_eq_some_iff.mp he.symm
  refine ⟨s.stmt?_of_expr here, fun i paren => ?_⟩
  rw [here] at paren
  cases paren
  simp [Expr.renamed] at eq

/-! ### Steps -/

/-- A step that moves no node. -/
theorem goes_look {α : Type} {step : WorkM α} (hs : w.Staged s r)
    (always : ∀ {P : Work → Prop}, StillInvariant P → Always P step) :
    Goes (Resolves s r) step (fun _ t => ∀ id, t.tree.stage id = w.tree.stage id) w :=
  goes_alike always fun t shape stages _ => ⟨hs.keep_alike shape stages,
    fun id => by rw [stages]; exact Stage.isUpTo_refl _, fun id => by rw [Passed, Passed, stages]; exact fun p => p⟩

/-- An open node moves on and stays open. -/
theorem goes_advance {stage : Stage} (hs : w.Staged s r)
    (next : (w.tree.stage id).isUpTo stage = true) (early : stage.isUpTo .validating = true) :
    Goes (Resolves s r) (setStage id stage)
      (fun _ t => (t.tree.stage id).isUpTo stage = true) w := by
  refine goes_setStage (fun _ => ⟨resolves_refl hs, next⟩) fun t _ shape others here _ => ?_
  have ho : w.Open id := Stage.isUpTo_trans next early
  have still : t.Open id := by rwa [Work.Open, here]
  refine ⟨⟨hs.keep_open shape ho still others, fun x => ?_, fun x hp => ?_⟩,
    here ▸ Stage.isUpTo_refl _⟩
  · by_cases eq : x = id
    · rw [eq, here]
      exact next
    · rw [others x eq]
      exact Stage.isUpTo_refl _
  · by_cases eq : x = id
    · rw [eq] at hp
      exact absurd hp still.not_passed
    · rwa [Passed, others x eq] at hp

/-- A name or a type that is not valid can fail. -/
theorem goes_fail (hs : w.Staged s r) (isBare : s.IsBare id) (unpassed : ¬w.Passed id) :
    Goes (Resolves s r) (setStage id .failed)
      (fun _ t => t.tree.stage id = w.tree.stage id ∨ t.tree.stage id = .failed) w := by
  refine goes_setStage (fun _ => ⟨resolves_refl hs, .inl rfl⟩) fun t _ shape others hx _ => ?_
  have inOrder : t.Staged s r := by
    by_cases was : w.tree.stage id = .failed
    · refine hs.keep_alike shape fun x => ?_
      by_cases self : x = id
      · rw [self, hx, was]
      · exact others x self
    · exact hs.fail_plain isBare.plain isBare.bare (open_iff.mpr ⟨unpassed, was⟩) shape hx others
  refine ⟨⟨inOrder, fun x => ?_, fun x hp => ?_⟩, .inr hx⟩
  · by_cases self : x = id
    · rw [self, hx]
      cases w.tree.stage id <;> rfl
    · rw [others x self]
      exact Stage.isUpTo_refl _
  · by_cases self : x = id
    · rw [self] at hp
      simp [passed_iff, hx] at hp
    · rwa [Passed, others x self] at hp

/-! ### Visits -/

/-- What an attempt to resolve a node leaves: only a name or a named type is put off, and the node
has failed or not moved. -/
structure Attempted (s : Tree) (id : NodeId) (b : Work) (prog : Progress) (t : Work) : Prop where
  bare : prog ≠ .done → s.IsBare id
  stage : t.tree.stage id = b.tree.stage id ∨ t.tree.stage id = .failed

theorem goes_resolveTypeName (sc : String) (hs : w.Staged s r) (unpassed : ¬w.Passed id) :
    Goes (Resolves s r) (resolveTypeName sc id) (Attempted s id w) w := by
  -- whatever is looked up or noted, the node has not moved when the attempt ends
  have ends : ∀ {α : Type} {step : WorkM α} {now : Work} {prog : Progress},
      now.Staged s r → (∀ id, now.tree.stage id = w.tree.stage id) →
      (prog ≠ .done → s.IsBare id) →
      (∀ {P : Work → Prop}, StillInvariant P → Always P step) →
      Goes (Resolves s r) (step >>= fun _ => pure prog) (Attempted s id w) now := by
    intro α step now prog stagedNow eq bare always
    exact Goes.bind (goes_look stagedNow always) fun _ t moved stages =>
      Goes.pure (resolves_refl moved.staged) ⟨bare, .inl ((stages id).trans (eq id))⟩
  refine goes_tree ?_
  split
  · exact Goes.throw (resolves_refl hs)
  · split
    · exact Goes.throw (resolves_refl hs)
    · exact Goes.bind (goes_look hs fun inv => inv.always_onPool _) fun ty now moved eq =>
        ends moved.staged eq (by simp) fun inv => inv.always_modifyFacts id fun _ =>
        ⟨rfl, fun _ => rfl, fun h => h, fun h => h⟩
  · rename_i names ps hf
    have isBare := isBare_of_type hs.peels hf
    refine Goes.bind (goes_look hs fun inv => inv.lookups.lookupType _ _ _) fun ans now moved eq => ?_
    split
    · exact ends moved.staged eq (by simp) fun inv => inv.notes.always_settleType _ _
    · refine Goes.bind (goes_look moved.staged fun inv => inv.always_reportAt _ _ _)
        fun _ now moved still => Goes.bind (goes_fail moved.staged isBare ?_)
        fun _ t moved stage => Goes.pure (resolves_refl moved.staged) ⟨by simp, ?_⟩
      · rwa [Passed, still, eq]
      · rwa [still, eq] at stage
    · exact ends moved.staged eq (fun _ => isBare) fun inv => inv.notes.always_deferType _ _
    · exact ends moved.staged eq (fun _ => isBare) fun inv => inv.notes.always_deferType _ _
  · exact Goes.pure (resolves_refl hs) ⟨by simp, .inl rfl⟩

theorem goes_resolveNode (sc : String) (hs : w.Staged s r) (unpassed : ¬w.Passed id) :
    Goes (Resolves s r) (resolveNode sc id) (Attempted s id w) w := by
  refine goes_tree ?_
  split
  · exact goes_resolveTypeName sc hs unpassed
  · rename_i name hf
    have isName : w.tree.expr? id = some (.name name) := by simp [Tree.expr?, hf, Form.expr?]
    have isBare := isBare_of_name hs.peels isName
    refine Goes.bind (goes_look hs fun inv => inv.lookups.lookupName _ _ _) fun ans now moved eq => ?_
    split
    · exact Goes.bind (goes_look moved.staged fun inv => inv.always_modifyFacts id fun _ =>
        ⟨rfl, fun h => h, fun _ => rfl, fun h => h⟩)
        fun _ t moved still => Goes.pure (resolves_refl moved.staged)
          ⟨by simp, .inl ((still id).trans (eq id))⟩
    · exact Goes.pure (resolves_refl moved.staged) ⟨fun _ => isBare, .inl (eq id)⟩
    · exact Goes.pure (resolves_refl moved.staged) ⟨fun _ => isBare, .inl (eq id)⟩
  · exact Goes.pure (resolves_refl hs) ⟨by simp, .inl rfl⟩

/-- A node that sweeps do not pass over has not been resolved. -/
theorem early_of_unsettled {tree : Tree} (unsettled : ¬isSettled tree id = true) :
    (tree.stage id).isUpTo .resolving = true := by
  unfold isSettled at unsettled
  cases stage : tree.stage id <;> simp_all [Stage.hasReached, Stage.isUpTo, Stage.rank]

theorem goes_visit (sc : String) (hs : w.Staged s r)
    (early : (w.tree.stage id).isUpTo .resolving = true) :
    Goes (Resolves s r) (visit sc id) (fun prog _ => prog ≠ .done → s.IsBare id) w := by
  refine Goes.bind (goes_advance hs early rfl) fun _ now moved soon => ?_
  have ho : now.Open id := Stage.isUpTo_trans soon rfl
  refine Goes.bind (goes_resolveNode sc moved.staged ho.not_passed)
    fun prog now moved attempted => goes_stage ?_
  split
  · rename_i ends
    have next : (now.tree.stage id).isUpTo .resolved = true := by
      rw [attempted.stage.resolve_right ends.2]
      exact Stage.isUpTo_trans soon rfl
    exact Goes.bind (goes_advance moved.staged next rfl) fun _ _ moved _ =>
      Goes.pure (resolves_refl moved.staged) attempted.bare
  · exact Goes.pure (resolves_refl moved.staged) attempted.bare

/-- A node that may be left over. -/
structure Waits (s : Tree) (w : Work) (id : NodeId) : Prop where
  bare : s.IsBare id
  unpassed : ¬w.Passed id

theorem Waits.lasts {t : Work} (waits : Waits s w id) (resolves : w.Resolves s r t) :
    Waits s t id :=
  ⟨waits.bare, fun hp => waits.unpassed (resolves.unpassed id hp)⟩

theorem goes_visitAll (sc : String) (ids : List NodeId) (hs : w.Staged s r) :
    Goes (Resolves s r) (visitAll sc ids) (fun rest t =>
      ∀ id ∈ rest.deferred, Waits s t id) w := by
  induction ids generalizing w with
  | nil => exact Goes.pure (resolves_refl hs) (by simp)
  | cons id ids ih =>
    refine goes_tree ?_
    split
    · exact ih hs
    · rename_i unsettled
      have early := early_of_unsettled unsettled
      have unpassed : ¬w.Passed id := Open.not_passed (Stage.isUpTo_trans early rfl)
      refine Goes.bind (goes_visit sc hs early) fun prog now moved bare => ?_
      have waits : ∀ {t : Work} {rest : Rest}, now.Resolves s r t → (∀ id ∈ rest.deferred, Waits s t id) →
          ∀ x ∈ (rest.after id prog).deferred, Waits s t x := by
        intro t rest hm others x mem
        have here : prog ≠ .done → Waits s t id := fun deferred =>
          ⟨bare deferred, fun hp => unpassed (moved.unpassed id (hm.unpassed id hp))⟩
        cases prog with
        | done => exact others x mem
        | deferred | waiting =>
          rcases List.mem_cons.mp mem with rfl | hi
          · exact here (by simp)
          · exact others x hi
      refine Goes.get ?_
      split
      · exact Goes.pure (resolves_refl moved.staged) (waits (resolves_refl moved.staged) (by simp))
      · exact Goes.bind ((ih moved.staged).answering fun _ _ hm others =>
          waits hm others) fun _ _ moved others => Goes.pure (resolves_refl moved.staged) others

theorem goes_failAll (excused : List NodeId) {lefts : List NodeId} (hs : w.Staged s r)
    (waits : ∀ id ∈ lefts, Waits s w id) :
    Goes (Resolves s r) (failAll excused lefts) (fun _ _ => True) w := by
  induction lefts generalizing w with
  | nil => exact Goes.pure (resolves_refl hs) trivial
  | cons id rest ih =>
    have fails : ∀ {now : Work}, now.Staged s r → w.Resolves s r now →
        Goes (Resolves s r) (setStage id .failed >>= fun _ => failAll excused rest)
          (fun _ _ => True) now := by
      intro now stagedNow hm
      have here := (waits id (by simp)).lasts hm
      exact Goes.bind (goes_fail stagedNow here.bare here.unpassed) fun _ t moved _ =>
        ih moved.staged fun x mem =>
          ((waits x (by simp [mem])).lasts hm).lasts moved
    unfold failAll
    split
    · exact fails hs (resolves_refl hs)
    · exact goes_tree (Goes.bind (goes_look hs fun inv => inv.always_reportAt _ _ _)
        fun _ now moved _ => fails moved.staged moved)

theorem goes_giveUp {lefts : List NodeId} (hs : w.Staged s r)
    (waits : ∀ id ∈ lefts, Waits s w id) :
    Goes (Resolves s r) (giveUp lefts) (fun _ _ => True) w :=
  goes_tree (goes_failAll _ hs waits)

end Resolution

end TreeCompiler
