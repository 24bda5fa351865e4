import TreeCompiler.Proofs.ResolutionInvariants
import TreeCompiler.Proofs.ValidationInvariants

/-!
# Reports

What was reported stays reported: neither resolution nor validation takes a diagnostic back, and a
unit that nothing serious stands against is not given up.
-/

namespace TreeCompiler

open Step

theorem Severity.isSerious_worse (fst snd : Severity) :
    (fst.worse snd).isSerious = (fst.isSerious || snd.isSerious) := by
  cases fst <;> cases snd <;> rfl

theorem Log.hasSerious_add (log : Log) (diag : Diagnostic) :
    (log.add diag).hasSerious = (log.hasSerious || diag.severity.isSerious) := by
  unfold hasSerious worst add
  rw [List.foldl_append]
  exact Severity.isSerious_worse _ _

/-- Diagnostics are kept, so that what is reported counts. -/
def Work.Logs (w : Work) : Prop := ∃ log, w.sink = .keeping log

theorem Work.Logs.reported {w : Work} (logs : w.Logs) (diag : Diagnostic) :
    (w.reported diag).Logs := by
  obtain ⟨log, keeping⟩ := logs
  exact ⟨log.add diag, by simp [Work.reported, keeping, Sink.report]⟩

theorem resolutionInvariant_logs : ResolutionInvariant Work.Logs :=
  .of_facts ⟨fun _ _ logs => logs, fun _ _ _ logs => logs⟩ (fun _ _ _ logs _ => logs)
    fun _ diag logs => logs.reported diag

theorem ValidationInvariant.of_sink {P : Work → Prop}
    (sink : ∀ {w t : Work}, P w → t.sink = w.sink → P t)
    (report : ∀ w diag, P w → P (w.reported diag)) : ValidationInvariant .any P where
  toLeads := .any
  stage _ _ _ h _ _ := sink h rfl
  type _ _ _ h _ := sink h rfl
  value _ _ _ _ _ h _ _ _ := sink h rfl
  fit _ _ _ h _ := sink h rfl
  report := report
  pool _ _ h _ := sink h rfl
  jump _ _ _ _ _ h _ _ _ _ := sink h rfl
  replace _ _ _ _ _ h _ _ _ _ := sink h rfl

theorem validationInvariant_logs : ValidationInvariant .any Work.Logs :=
  .of_sink (fun logs eq => by rwa [Work.Logs, eq]) fun _ diag logs => logs.reported diag

theorem Log.hasSerious_eq_any (log : Log) :
    log.hasSerious = log.entries.any (·.severity.isSerious) := by
  have along : ∀ (entries : List Diagnostic) (worst : Severity),
      (entries.foldl (fun worst entry => worst.worse entry.severity) worst).isSerious =
        (worst.isSerious || entries.any (·.severity.isSerious)) := by
    intro entries
    induction entries with
    | nil => simp
    | cons entry rest ih =>
      intro worst
      rw [List.foldl_cons, ih, Severity.isSerious_worse, List.any_cons, Bool.or_assoc]
  exact along log.entries .none

namespace Work

variable {w : Work}

/-- Something serious was reported, or what is reported does not count. -/
def Loud (w : Work) : Prop := w.sink = .silent ∨ w.sink.hasSerious = true

theorem Loud.reported (loud : w.Loud) (diag : Diagnostic) : (w.reported diag).Loud := by
  rcases loud with silent | serious
  · exact .inl (by simp [Work.reported, silent, Sink.report])
  · cases kept : w.sink with
    | silent => simp [kept, Sink.hasSerious] at serious
    | keeping log =>
      right
      simp only [kept, Sink.hasSerious] at serious
      simp [Work.reported, kept, Sink.report, Sink.hasSerious, Log.hasSerious_add, serious]

theorem loud_reported {diag : Diagnostic} (serious : diag.severity.isSerious = true) :
    (w.reported diag).Loud := by
  cases kept : w.sink with
  | silent => exact .inl (by simp [Work.reported, kept, Sink.report])
  | keeping log =>
    right
    simp [Work.reported, kept, Sink.report, Sink.hasSerious, Log.hasSerious_add, serious]

theorem loud_of_reportAt {t : Work} {code : Code} {id : NodeId} {args : List String} {u : Unit}
    (done : WorkM.reportAt code id args w = .ok u t) : t.Loud := by
  rw [← WorkM.reportAt_ok.mp done]
  exact loud_reported rfl

theorem Logs.loud_iff (logs : w.Logs) : w.Loud ↔ w.sink.hasSerious = true := by
  obtain ⟨log, kept⟩ := logs
  simp [Loud, kept]

/-- A unit is not given up as long as nothing serious is reported. -/
theorem not_abortDesired (quiet : ¬w.Loud) : w.sink.abortDesired = false := by
  cases kept : w.sink with
  | silent => exact absurd (.inl kept) quiet
  | keeping log =>
    have fine : log.hasSerious = false := by simpa [Loud, kept, Sink.hasSerious] using quiet
    have mild : log.serious = 0 := by
      rw [Log.hasSerious_eq_any] at fine
      simpa [Log.serious, List.countP_eq_zero] using fine
    have worst : log.worst ≠ .fatal := by
      intro fatal
      simp [Log.hasSerious, fatal, Severity.isSerious, Severity.rank] at fine
    simp only [Sink.abortDesired, Log.abortDesired, Log.limitReached, mild]
    simp [worst, Nat.pos_iff_ne_zero]

end Work

/-- Nothing serious was reported before a step after which nothing serious is reported. -/
theorem Step.Keeps.quiet {α : Type} {step : WorkM α} {w t : Work} {ans : α}
    (keeps : Keeps Work.Loud step) (ran : step w = .ok ans t) (quiet : ¬t.Loud) : ¬w.Loud :=
  fun loud => quiet (keeps w ans t loud ran)

theorem resolutionInvariant_loud : ResolutionInvariant Work.Loud :=
  .of_facts ⟨fun _ _ loud => loud, fun _ _ _ loud => loud⟩ (fun _ _ _ loud _ => loud)
    fun _ diag loud => loud.reported diag

theorem validationInvariant_loud : ValidationInvariant .any Work.Loud :=
  .of_sink (fun loud eq => by rwa [Work.Loud, eq]) fun _ diag loud => loud.reported diag

theorem loudLogic : CheckLogic .any (Keeps Work.Loud) := validationInvariant_loud.logic

end TreeCompiler
