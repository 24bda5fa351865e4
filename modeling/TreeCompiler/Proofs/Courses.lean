import TreeCompiler.Proofs.EmissionInvariants
import TreeCompiler.Proofs.ResolutionInvariants
import TreeCompiler.Proofs.ValidationInvariants

/-!
# The course of an emitted unit

How a unit that is emitted went through its stages: it was resolved, validated and emitted, and
nothing serious was reported on the way.
-/

namespace TreeCompiler

open Step

namespace CourseM

variable {α : Type} {c t : Course}

theorem tree_ok {tree : Tree} : CourseM.tree c = .ok tree t ↔ c.work.tree = tree ∧ c = t := by
  simp only [CourseM.tree, bind_ok, get_ok, pure_ok]
  grind

theorem onWork_ok {step : WorkM α} {a : α} : CourseM.onWork step c = .ok a t ↔
      ∃ w, step c.work = .ok a w ∧ { c with work := w } = t := by
  unfold CourseM.onWork
  cases step c.work <;> simp

theorem onWork_eq_error {step : WorkM α} {defect : Defect} :
    CourseM.onWork step c = .error defect t ↔
      ∃ w, step c.work = .error defect w ∧ { c with work := w } = t := by
  unfold CourseM.onWork
  cases step c.work <;> simp

end CourseM

namespace Course

open CourseM

variable {c t : Course}

section

variable {α : Type} {P : Work → Prop}

theorem always_work {step : CourseM α}
    (always : ∀ {r}, Always (fun c : Course => P c.work ∧ c.root = r) step) :
    Always (fun c : Course => P c.work) step :=
  fun c h => (always c ⟨h, rfl⟩).1

variable (validates : ∀ id, Always P (Validation.validate id))
  (sends : SendingInvariant (fun _ => True) P)

include validates in
theorem always_validate : Always (fun c : Course => P c.work) validate := by
  refine Always.bind Always.get fun _ =>
    Always.bind (always_work (always_onWork (validates _))) fun root? => ?_
  cases root? with
  | none => exact Always.pure _
  | some r => exact Always.bind (fun _ h => h) fun _ => Always.pure _

include sends

theorem always_emitMethods (ids : List NodeId) :
    Always (fun c : Course => P c.work) (emitMethods ids) := by
  induction ids with
  | nil => exact Always.pure _
  | cons id rest ih =>
    refine Always.bind (Always.bind Always.get fun _ => Always.pure _) fun tree => ?_
    dsimp only
    split
    · exact fun _ h => h
    · exact Always.bind Always.get fun c => Always.bind (always_work (always_onWork
        (sends.always_method _ fun _ _ _ => trivial))) fun _ => Always.bind ih fun _ => Always.pure _

theorem always_emit : Always (fun c : Course => P c.work) emit := by
  have looks : Always (fun c : Course => P c.work) CourseM.tree :=
    Always.bind Always.get fun _ => Always.pure _
  refine Always.bind Always.get fun _ => Always.bind looks fun tree => ?_
  split
  · exact Always.throw _
  · refine Always.bind (always_emitMethods sends _) fun methods => Always.bind looks fun tree => ?_
    dsimp only
    split
    · exact Always.pure _
    · exact Always.bind (always_work (always_onWork fun w h => sends.sent w _ h trivial))
        fun _ => Always.pure _

include validates

/-- What every stage of a unit keeps is kept by its whole course, wherever that ends. -/
theorem always_run (resolves : Always (fun c : Course => P c.work) (resolve none)) :
    Always (fun c : Course => P c.work) run := by
  refine Always.bind resolves fun _ => Always.bind Always.get fun _ => ?_
  split
  · exact Always.pure _
  · refine Always.bind (always_validate validates) fun root? => Always.bind Always.get fun _ => ?_
    split
    · exact Always.pure _
    · exact Always.bind (always_emit sends) fun _ => Always.bind Always.get fun _ => Always.pure _

end

theorem validate_ok {r : NodeId} (done : validate c = .ok (some r) t) :
    ∃ w, Validation.validate c.root c.work = .ok (some r) w ∧
      t = { c with work := w, root := r } := by
  replace done := rest_ok done rfl
  obtain ⟨root?, snd, ran, done⟩ := bind_ok.mp done
  obtain ⟨w, worked, rfl⟩ := onWork_ok.mp ran
  cases root? with
  | none =>
    obtain ⟨absurd, -⟩ := pure_ok.mp done
    simp at absurd
  | some got =>
    obtain ⟨u, third, changed, done⟩ := bind_ok.mp done
    cases changed
    obtain ⟨he, rfl⟩ := pure_ok.mp done
    cases he
    exact ⟨w, worked, rfl⟩

theorem emitMethods_cons_ok {id : NodeId} {rest : List NodeId} {methods : List Method}
    (done : emitMethods (id :: rest) c = .ok methods t) :
    ∃ m others w, methods = m :: others ∧ c.work.tree.stage id = .validated ∧
      Emission.method c.options.warnUnreachable id c.work = .ok m w ∧
      emitMethods rest { c with work := w } = .ok others t := by
  replace done := rest_ok done rfl
  dsimp only at done
  split at done
  · simp [bind_ok] at done
  · rename_i hs
    replace done := rest_ok done rfl
    obtain ⟨m, snd, ran, done⟩ := bind_ok.mp done
    obtain ⟨w, worked, rfl⟩ := onWork_ok.mp ran
    obtain ⟨others, rest, rfl⟩ := bind_pure_ok.mp done
    exact ⟨m, others, w, rfl, by simpa using hs, worked, rest⟩

/-- The methods of a unit are emitted in order, and at most the root changes its stage after
that. -/
theorem emit_ok {methods : List Method} (done : emit c = .ok methods t) :
    ∃ ids emitted, Course.methods c.work.tree c.root = .ok ids ∧
      emitMethods ids c = .ok methods emitted ∧ (t = emitted ∨
        t.work = emitted.work.withTree (emitted.work.tree.setStage c.root .emitted)) := by
  replace done := rest_ok done rfl
  replace done := rest_ok done rfl
  cases hf : Course.methods c.work.tree c.root with
  | error defect => simp [hf] at done
  | ok ids =>
    simp only [hf] at done
    obtain ⟨emittedMethods, emitted, ran, done⟩ := bind_ok.mp done
    replace done := rest_ok done rfl
    split at done
    · obtain ⟨rfl, rfl⟩ := pure_ok.mp done
      exact ⟨ids, emitted, rfl, ran, .inl rfl⟩
    · obtain ⟨u, changed, rfl⟩ := bind_pure_ok.mp done
      obtain ⟨w, worked, rfl⟩ := onWork_ok.mp changed
      exact ⟨ids, emitted, rfl, ran, .inr (WorkM.setStage_ok.mp worked).symm⟩

/-- A unit whose methods are given was resolved, validated and emitted without anything serious. -/
theorem run_ok {methods : List Method} (done : run c = .ok (some methods) t) :
    ∃ out res r validated, resolve none c = .ok out res ∧ validate res = .ok (some r) validated ∧
      emit validated = .ok methods t ∧ t.work.sink.hasSerious = false := by
  obtain ⟨out, res, ranResolve, done⟩ := bind_ok.mp done
  replace done := rest_ok done rfl
  split at done
  · simp at done
  · obtain ⟨root?, validated, ranValidate, done⟩ := bind_ok.mp done
    replace done := rest_ok done rfl
    split at done
    · simp at done
    · rename_i fine
      obtain ⟨hf, emitted, ranEmit, done⟩ := bind_ok.mp done
      replace done := rest_ok done rfl
      obtain ⟨given, rfl⟩ := pure_ok.mp done
      cases root? with
      | none => simp at fine
      | some r =>
        split at given
        · simp at given
        · rename_i quiet
          cases given
          exact ⟨out, res, r, validated, ranResolve, ranValidate, ranEmit,
            by simpa using quiet⟩

end Course

namespace Session

/-- The course that a session starts for a tree with a root. -/
def courseOf (session : Session) (symbols : SymbolTable) (tree : Tree) (r : NodeId) : Course :=
  { work := session.workOn symbols tree
    root := r
    options := session.options
    scope := tree.containerName r }

theorem compile_emitted {session : Session} {symbols : SymbolTable} {tree : Tree}
    (emitted : (session.compile symbols tree).report.status = .emitted) :
    ∃ r t, tree.root = some r ∧ Course.run (session.courseOf symbols tree r) =
        .ok (some (session.compile symbols tree).report.methods) t ∧
      (session.compile symbols tree).tree = t.work.tree ∧
      (session.compile symbols tree).session.pool = t.work.pool := by
  unfold compile at emitted ⊢
  cases rooted : tree.root with
  | none => simp [rooted, abandon, close] at emitted
  | some r =>
    simp only [rooted] at emitted ⊢
    cases ran : Course.run (session.courseOf symbols tree r) with
    | error defect t =>
      simp only [courseOf] at ran
      simp [ran, abandon, close] at emitted
    | ok methods t =>
      simp only [courseOf] at ran
      simp only [ran] at emitted ⊢
      cases methods with
      | none =>
        simp only [close] at emitted
        split at emitted <;> simp at emitted
      | some methods => exact ⟨r, t, rfl, ran, rfl, rfl⟩

end Session

end TreeCompiler
