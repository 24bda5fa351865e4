import TreeCompiler.Proofs.StepLogics
import TreeCompiler.Proofs.TreeChanges

/-!
# Invariants of resolution

Resolving the names of a unit changes the pool, the symbol table and the log as it likes, but of a
node only its stage, its type and its binding. What these changes keep is kept by resolution,
whether it ends well or stops.
-/

namespace TreeCompiler

open Step

variable {α : Type} {r : NodeId}

/-- What resolution leaves as it is about a node: everything but its stage, its type and its
binding. -/
def Facts.unresolved (facts : Facts) : Facts :=
  { facts with stage := .initial, type := none, binding := none }

/-- The facts about a node without its type. -/
def Facts.untyped (facts : Facts) : Facts := { facts with type := none }

/-- The notes that resolution makes: no node comes as far as being valid. -/
def Facts.Resolves (f : Facts → Facts) : Prop :=
  ∀ facts : Facts, (f facts).unresolved = facts.unresolved ∧
    ((f facts).stage = facts.stage ∨ (f facts).stage.hasReached .validated = false)

/-- A property of the work that looking for what names denote keeps. -/
structure LookupInvariant (P : Work → Prop) : Prop where
  pool : ∀ w pool, P w → P (w.withPool pool)
  symbols : ∀ w sc name, P w → P { w with symbols := (w.symbols.lookup sc name).2 }

/-- A property of the work that is kept as long as only types are noted. -/
structure NoteInvariant (P : Work → Prop) : Prop extends LookupInvariant P where
  note : ∀ w id f, P w → (∀ facts : Facts, (f facts).untyped = facts.untyped ∧
      (facts.type.isSome → (f facts).type.isSome)) →
    P (w.withTree (w.tree.modifyFacts id f))

/-- A property of the work that every basic step of resolution keeps. A name that is bound to a
local is bound to the one that its scope says. -/
structure ResolutionInvariant (P : Work → Prop) : Prop extends NoteInvariant P where
  stage : ∀ w id stage, P w → stage.hasReached .validated = false → P (w.withTree (w.tree.setStage id stage))
  bind : ∀ w id name binding, P w → w.tree.expr? id = some (.name name) →
    (∀ decl, binding = .localDecl decl → Text.hasDot name = false ∧ w.tree.findLocal id name = some decl) →
    P (w.withTree (w.tree.modifyFacts id fun facts => { facts with binding := some binding }))
  report : ∀ w diag, P w → P (w.reported diag)

namespace LookupInvariant

open WorkM Resolution

variable {P : Work → Prop} (inv : LookupInvariant P)

theorem always_tree : Always P WorkM.tree := Always.bind Always.get fun _ => Always.pure _

theorem always_facts (id : NodeId) : Always P (WorkM.facts id) :=
  Always.bind always_tree fun _ => Always.pure _

theorem always_stage (id : NodeId) : Always P (WorkM.stage id) :=
  Always.bind always_tree fun _ => Always.pure _

theorem always_attempt {step : WorkM α} (always : Always P step) : Always P (attempt step) := by
  intro w h
  have kept := always w h
  unfold attempt
  cases ran : step w <;> rw [ran] at kept <;> exact kept

include inv

theorem always_onPool (step : PoolM α) : Always P (onPool step) := by
  intro w h
  unfold onPool
  cases step w.pool <;> exact inv.pool w _ h

theorem always_lookup (sc name : String) : Always P (lookup sc name) :=
  fun w h => inv.symbols w sc name h

/-! ### Type expressions -/

theorem pools : PoolLogic (Always P) := { LookLogic.always with onPool := fun _ => inv.always_onPool _ }

theorem lookups : LookupLogic (Always P) :=
  { inv.pools with
    get := Always.get
    attempt := always_attempt
    lookup := inv.always_lookup }

end LookupInvariant

namespace Resolution

open WorkM

variable {sc name : String} {id decl : NodeId} {w t : Work}

theorem tree_lookupName {ans : NameLookup} (done : lookupName sc id name w = .ok ans t) :
    t.tree = w.tree := by
  have inv : LookupInvariant fun x => x.tree = w.tree :=
    ⟨fun _ _ eq => eq, fun _ _ _ eq => eq⟩
  exact (inv.lookups.lookupName sc id name).keeps w ans t rfl done

theorem lookupSymbol_ne_local : lookupSymbol sc name w ≠ .ok (.bound (.localDecl decl)) t := by
  intro done
  obtain ⟨hf, mid, -, done⟩ := bind_ok.mp done
  cases hf with
  | found comp => cases comp <;> simp [Component.binding] at done
  | notFound | notYet => simp at done

/-- What a name means inside the unit: a local, what a type name stands for, or a type of the
language. -/
inductive SeenInUnit (w : Work) (id : NodeId) (name : String) : Option NameLookup → Work → Prop
  | declared {decl : NodeId} (hd : w.tree.findLocal id name = some decl) :
    SeenInUnit w id name (some (.bound (.localDecl decl))) w
  | aliased {typedef : NodeId} {type? : Option ConstId} {t : Work} (ran : typedefType typedef w = .ok type? t) :
    SeenInUnit w id name (some (type?.elim .unknown fun ty => .bound (.type ty))) t
  | builtin {ty : ConstId} {t : Work} (ran : onPool (.namedType name) w = .ok ty t) :
    SeenInUnit w id name (some (.bound (.type ty))) t
  | absent (hd : w.tree.findLocal id name = none) : SeenInUnit w id name none w

theorem lookupInUnit_ok {ans : Option NameLookup} (ran : lookupInUnit id name w = .ok ans t) :
    SeenInUnit w id name ans t := by
  replace ran := rest_ok ran rfl
  cases hd : w.tree.findLocal id name with
  | some decl =>
    simp only [hd] at ran
    cases ran
    exact .declared hd
  | none =>
    simp only [hd] at ran
    cases hv : w.tree.findTypedef id name with
    | some typedef =>
      simp only [hv] at ran
      obtain ⟨type?, mid, typed, ran⟩ := bind_ok.mp ran
      have seen : SeenInUnit w id name _ mid := .aliased typed
      cases type? <;> cases ran <;> exact seen
    | none =>
      simp only [hv] at ran
      split at ran
      · obtain ⟨ty, interned, rfl⟩ := bind_pure_ok.mp ran
        exact .builtin interned
      · cases ran
        exact .absent hd

theorem lookupName_eq_local (done : lookupName sc id name w = .ok (.bound (.localDecl decl)) t) :
    Text.hasDot name = false ∧ w.tree.findLocal id name = some decl := by
  unfold lookupName at done
  split at done
  · exact absurd done lookupSymbol_ne_local
  · rename_i hp
    obtain ⟨inUnit, mid, ran, done⟩ := bind_ok.mp done
    cases lookupInUnit_ok ran with
    | declared hd =>
      cases done
      exact ⟨by simpa using hp, hd⟩
    | @aliased _ type? => cases type? <;> simp at done
    | builtin => simp at done
    | absent => exact absurd done lookupSymbol_ne_local

end Resolution

namespace NoteInvariant

open WorkM Resolution LookupInvariant

variable {P : Work → Prop} (inv : NoteInvariant P)

include inv

theorem always_settleType (id : NodeId) (ty : ConstId) : Always P (settleType id ty) := by
  have notes : Always P (modifyFacts id fun facts => { facts with type := some ty }) :=
    fun w h => inv.note w id _ h fun _ => ⟨rfl, fun _ => rfl⟩
  refine Always.bind (always_facts id) fun facts => ?_
  split
  · exact notes
  · refine Always.bind (inv.always_onPool _) fun entry => ?_
    split
    · exact inv.always_onPool _
    · exact notes

theorem always_deferType (id : NodeId) (name : String) : Always P (deferType id name) := by
  refine Always.bind (always_facts id) fun facts => ?_
  split
  · exact Always.bind (inv.always_onPool _) fun _ w h =>
      inv.note w id _ h fun _ => ⟨rfl, fun _ => rfl⟩
  · exact Always.pure _

end NoteInvariant

namespace Resolution

open WorkM LookupInvariant

variable {P : Work → Prop}

theorem always_visitAll (visits : ∀ sc id, Always P (visit sc id)) (sc : String)
    (ids : List NodeId) : Always P (visitAll sc ids) := by
  induction ids with
  | nil => exact Always.pure _
  | cons id rest ih =>
    refine Always.bind always_tree fun tree => ?_
    split
    · exact ih
    · refine Always.bind (visits _ _) fun prog => Always.bind Always.get fun w => ?_
      split
      · exact Always.pure _
      · exact Always.bind ih fun _ => Always.pure _

theorem always_giveUp (fails : ∀ id, Always P (setStage id .failed))
    (reports : ∀ code id args, Always P (reportAt code id args)) (lefts : List NodeId) :
    Always P (giveUp lefts) := by
  have all : ∀ excused, Always P (failAll excused lefts) := by
    intro excused
    induction lefts with
    | nil => exact Always.pure _
    | cons id rest ih =>
      unfold failAll
      dsimp only
      split
      · exact Always.bind (fails _) fun _ => ih
      · exact Always.bind always_tree fun _ => Always.bind (reports _ _ _) fun _ =>
          Always.bind (fails _) fun _ => ih
  exact Always.bind always_tree fun _ => all _

end Resolution

namespace ResolutionInvariant

open WorkM Resolution LookupInvariant

variable {P : Work → Prop}

/-- A property that does not tell the notes of resolution apart. -/
theorem of_facts (lookups : LookupInvariant P) (facts : ∀ w id f, P w → Facts.Resolves f →
      P (w.withTree (w.tree.modifyFacts id f)))
    (report : ∀ w diag, P w → P (w.reported diag)) : ResolutionInvariant P where
  pool := lookups.pool
  symbols := lookups.symbols
  note w id f h kept := by
    refine facts w id f h fun held => ⟨?_, .inl ?_⟩
    · simpa only [Facts.unresolved, Facts.untyped] using congrArg Facts.unresolved (kept held).1
    · simpa only [Facts.untyped] using congrArg Facts.stage (kept held).1
  stage w id stage h early := facts w id _ h fun _ => ⟨rfl, .inr early⟩
  bind w id name binding h _ _ := facts w id _ h fun _ => ⟨rfl, .inl rfl⟩
  report := report

variable (inv : ResolutionInvariant P)

include inv

theorem always_setStage (id : NodeId) {stage : Stage}
    (early : stage.hasReached .validated = false) : Always P (setStage id stage) :=
  fun w h => inv.stage w id stage h early

theorem always_reportAt (code : Code) (id : NodeId) (args : List String) :
    Always P (reportAt code id args) :=
  Always.bind always_tree fun _ w h => inv.report w _ h

theorem always_resolveTypeName (sc : String) (id : NodeId) :
    Always P (resolveTypeName sc id) := by
  refine Always.bind always_tree fun tree => ?_
  split
  · exact Always.throw _
  · split
    · exact Always.throw _
    · exact Always.bind (inv.always_onPool _) fun _ =>
        Always.bind (fun w h => inv.note w id _ h fun _ => ⟨rfl, fun _ => rfl⟩) fun _ => Always.pure _
  · refine Always.bind (inv.lookups.lookupType _ _ _) fun ans => ?_
    split
    · exact Always.bind (inv.always_settleType _ _) fun _ => Always.pure _
    · exact Always.bind (inv.always_reportAt _ _ _) fun _ =>
        Always.bind (inv.always_setStage _ rfl) fun _ => Always.pure _
    · exact Always.bind (inv.always_deferType _ _) fun _ => Always.pure _
    · exact Always.bind (inv.always_deferType _ _) fun _ => Always.pure _
  · exact Always.pure _

/-! ### Sweeps -/

theorem always_resolveNode (sc : String) (id : NodeId) : Always P (resolveNode sc id) := by
  intro w h
  refine endState_bind h fun tree hl ran => ?_
  cases ran
  cases hf : w.tree.form? id with
  | none => exact h
  | some form =>
    cases form with
    | stmt stmt => exact h
    | type ty => exact inv.always_resolveTypeName sc id w h
    | expr expr =>
      cases expr with
      | name name =>
        have hl := inv.lookups.lookupName sc id name w h
        refine endState_bind hl fun ans t ran => ?_
        rw [ran] at hl
        have eq := tree_lookupName ran
        have isName : t.tree.expr? id = some (.name name) := by
          simp [eq, Tree.expr?, hf, Form.expr?]
        cases ans with
        | bound binding =>
          refine inv.bind t id name binding hl isName fun decl isLocal => ?_
          subst isLocal
          rw [eq]
          exact lookupName_eq_local ran
        | unknown | waiting => exact hl
      | _ => exact h

theorem always_visit (sc : String) (id : NodeId) : Always P (visit sc id) := by
  refine Always.bind (inv.always_setStage _ rfl) fun _ =>
    Always.bind (inv.always_resolveNode _ _) fun prog =>
    Always.bind (always_stage _) fun stage => ?_
  dsimp only
  split
  · exact Always.bind (inv.always_setStage _ rfl) fun _ => Always.pure _
  · exact Always.pure _

theorem always_visitAll (sc : String) (ids : List NodeId) : Always P (visitAll sc ids) :=
  Resolution.always_visitAll inv.always_visit sc ids

theorem always_giveUp (lefts : List NodeId) : Always P (giveUp lefts) :=
  Resolution.always_giveUp (fun id => inv.always_setStage id rfl) inv.always_reportAt lefts

end ResolutionInvariant

/-! ### The course of a unit -/

namespace Course

open CourseM

variable {P : Work → Prop}

theorem always_onWork {step : WorkM α} (always : Always P step) :
    Always (fun c : Course => P c.work ∧ c.root = r) (onWork step) := by
  rintro c ⟨h, eq⟩
  have kept := always c.work h
  unfold onWork
  cases ran : step c.work <;> rw [ran] at kept <;> exact ⟨kept, eq⟩

variable (visits : ∀ sc ids, Always P (Resolution.visitAll sc ids))

include visits

theorem always_sweep (ids : List NodeId) : Always (fun c : Course => P c.work ∧ c.root = r)
    (sweep ids) :=
  Always.bind (fun _ h => h) fun _ => Always.bind Always.get fun _ =>
    Always.bind (always_onWork (visits _ _)) fun _ =>
    Always.bind (fun _ h => h) fun _ => Always.pure _

theorem always_sweepPending (left : Nat) :
    Always (fun c : Course => P c.work ∧ c.root = r) (sweepPending left) := by
  induction left with
  | zero =>
    refine Always.bind Always.get fun c => ?_
    split <;> exact Always.pure _
  | succ left ih =>
    refine Always.bind Always.get fun c => ?_
    split
    · exact Always.pure _
    · refine Always.bind (always_sweep visits _) fun waiting => Always.bind Always.get fun t => ?_
      split
      · exact Always.pure _
      · exact ih

/-- Resolving the names of a unit keeps what visits and giving up keep, and the root. -/
theorem always_resolve (fails : ∀ ids, Always P (Resolution.giveUp ids)) (cap : Option Nat) :
    Always (fun c : Course => P c.work ∧ c.root = r) (resolve cap) := by
  refine Always.bind Always.get fun c => ?_
  split
  · exact Always.pure _
  · exact Always.bind Always.get fun _ => Always.bind
      (Always.bind Always.get fun _ => Always.pure _) fun _ => Always.bind Always.get fun _ =>
      Always.bind (always_sweep visits _) fun _ => Always.bind Always.get fun _ =>
      Always.bind (always_sweepPending visits _) fun _ => Always.bind Always.get fun _ =>
      Always.bind (fun _ h => h) fun _ => Always.bind (always_onWork (fails _)) fun _ =>
      Always.bind (fun _ h => h) fun _ => Always.pure _

end Course

theorem ResolutionInvariant.always_resolve {P : Work → Prop} (inv : ResolutionInvariant P)
    (cap : Option Nat) : Always (fun c : Course => P c.work ∧ c.root = r) (Course.resolve cap) :=
  Course.always_resolve inv.always_visitAll inv.always_giveUp cap

end TreeCompiler
