import TreeCompiler.Jumps
import TreeCompiler.Proofs.FreshTrees

/-!
# Targets of jumps

A jump goes to an enclosing statement of its method that can be left or continued. The scopes it
leaves are the ones that are open at the jump but not inside the target.
-/

namespace TreeCompiler

/-- Whether jumps of the kind may go to the statement, with a label or without one. -/
def Stmt.offers (kind : JumpKind) : Stmt → Bool
  | .labeled .. => kind = .breakOut
  | stmt => kind.accepts stmt

theorem Stmt.offers_of_accepts {kind : JumpKind} {stmt : Stmt} (accepts : kind.accepts stmt) :
    stmt.offers kind := by
  cases stmt with
  | labeled => cases kind <;> simp [JumpKind.accepts, isBreakTarget, isLoop] at accepts
  | _ => exact accepts

namespace Tree

variable (tree : Tree)

/-- The number of scopes that are open where the code of a statement starts. -/
def level (id : NodeId) : Nat := (tree.ancestorsInMethod id).countP tree.entersScope

/-- The number of scopes that are open inside a statement. -/
def innerLevel (id : NodeId) : Nat := tree.level id + if tree.entersScope id then 1 else 0

/-- The jump of a statement as its kind, its label and the statements around it say. -/
def Binds (id : NodeId) (jump : Jump) : Prop :=
  ∃ l, (tree.stmt? id).bind Stmt.jump? = some (jump.kind, l) ∧
    tree.jumpTarget jump.kind l (tree.ancestorsInMethod id) = .ok jump.target ∧
    jump.depth = tree.scopesUpTo jump.target (tree.ancestorsInMethod id)

variable {tree}

theorem findLabeled_eq_some {l : String} {ancestors : List NodeId} {id body : NodeId}
    (hf : tree.findLabeled l ancestors = some (id, body)) :
    id ∈ ancestors ∧ tree.stmt? id = some (.labeled l body) := by
  obtain ⟨x, mem, ans⟩ := List.exists_of_findSome?_eq_some hf
  cases labeled : (tree.stmt? x).bind Stmt.labeled? with
  | none => simp [labeled] at ans
  | some entry =>
    split at ans
    · obtain ⟨stmt, here, form⟩ := Option.bind_eq_some_iff.mp labeled
      cases stmt <;> simp_all [Stmt.labeled?]
    · simp at ans

namespace IsLinked

variable {r : NodeId} (lk : tree.IsLinked r)

include lk

/-- The ancestors of a node up to one of them, which follow the child that the node lies under. -/
theorem ancestorsInMethod_split {id tgt : NodeId} (hb : tree.Below r id)
    (mem : tgt ∈ tree.ancestorsInMethod id) : id.index < tgt.index ∧ tree.Below r tgt ∧
      ∃ between, tree.ancestorsInMethod id = between ++ tgt :: tree.ancestorsInMethod tgt ∧
        tgt ∉ between ∧ ∃ c ∈ tree.children tgt, c = id ∨ c ∈ between := by
  induction hb with
  | root => simp [ancestorsInMethod, lk.ancestors_root] at mem
  | @child id c hb isChild ih =>
    have lower := lk.upward id c hb isChild
    rw [lk.ancestorsInMethod_child hb isChild] at mem ⊢
    split at mem
    · simp at mem
    · rename_i hi
      simp only [hi]
      rcases List.mem_cons.mp mem with rfl | above
      · exact ⟨lower, hb, [], rfl, by simp, c, isChild, .inl rfl⟩
      · obtain ⟨lower', belowTarget, between, he, absent, next, isNext, where_⟩ := ih above
        refine ⟨by omega, belowTarget, id :: between, by rw [he]; rfl, ?_, next, isNext, .inr ?_⟩
        · rw [List.mem_cons, not_or]
          exact ⟨fun eq => by rw [eq] at lower'; omega, absent⟩
        · rw [List.mem_cons]
          exact where_

theorem level_child {id c : NodeId} (hb : tree.Below r id)
    (mem : c ∈ tree.children id) (hi : tree.isMethod id = false) :
    tree.level c = tree.innerLevel id := by
  rw [level, lk.ancestorsInMethod_child hb mem, hi]
  simp [innerLevel, level, List.countP_cons]

theorem level_child_method {id c : NodeId} (hb : tree.Below r id)
    (mem : c ∈ tree.children id) (m : tree.isMethod id) : tree.level c = 0 := by
  rw [level, lk.ancestorsInMethod_child hb mem, m]
  simp

/-- The jump of a statement goes to an enclosing statement that jumps may go to, and leaves the
scopes that are not open there. -/
theorem binds_target {id : NodeId} {jump : Jump} (hb : tree.Below r id)
    (binds : tree.Binds id jump) :
    jump.target ∈ tree.ancestorsInMethod id ∧ (tree.stmt? jump.target).any (·.offers jump.kind) ∧
      tree.level id = tree.innerLevel jump.target + jump.depth := by
  obtain ⟨l, isJump, hf, left⟩ := binds
  have tgt : jump.target ∈ tree.ancestorsInMethod id ∧
      (tree.stmt? jump.target).any (·.offers jump.kind) := by
    cases l with
    | none =>
      simp only [jumpTarget] at hf
      split at hf
      · rename_i tgt fst
        cases hf
        refine ⟨List.mem_of_find?_eq_some fst, ?_⟩
        have accepts := List.find?_some fst
        rw [Option.any_eq_true] at accepts ⊢
        obtain ⟨stmt, here, accepts⟩ := accepts
        exact ⟨stmt, here, Stmt.offers_of_accepts accepts⟩
      · simp at hf
    | some l =>
      simp only [jumpTarget] at hf
      split at hf
      · simp at hf
      · rename_i labeled body fst
        obtain ⟨mem, here⟩ := findLabeled_eq_some fst
        cases kind : jump.kind with
        | breakOut =>
          simp only [kind] at hf
          cases hf
          exact ⟨mem, by simp [here, Stmt.offers]⟩
        | continueLoop =>
          simp only [kind] at hf
          split at hf
          · rename_i isLoop
            have eq : body = jump.target := by simpa using hf
            rw [← eq]
            obtain ⟨-, -, between, he, -, c, isChild, where_⟩ :=
              lk.ancestorsInMethod_split hb mem
            -- the loop under the label is the only child that the jump can lie under
            obtain rfl : c = body := by
              simpa [tree.children_of_stmt here, Stmt.children] using isChild
            rw [Option.any_eq_true] at isLoop ⊢
            obtain ⟨stmt, loop, isLoop⟩ := isLoop
            refine ⟨?_, stmt, loop, Stmt.offers_of_accepts isLoop⟩
            rcases where_ with self | hi
            · rw [← self, loop] at isJump
              cases stmt <;> simp [Stmt.isLoop, Stmt.jump?] at isLoop isJump
            · rw [he]
              exact List.mem_append_left _ hi
          · simp at hf
  refine ⟨tgt.1, tgt.2, ?_⟩
  obtain ⟨-, -, between, he, absent, -⟩ := lk.ancestorsInMethod_split hb tgt.1
  have between_all : ∀ x ∈ between, decide (x ≠ jump.target) = true := by
    intro x mem
    rw [decide_eq_true_eq]
    rintro rfl
    exact absent mem
  rw [level, left, scopesUpTo, he, List.takeWhile_append_of_pos between_all, List.countP_append,
    List.countP_cons, innerLevel, level]
  simp
  omega

end IsLinked

end Tree

end TreeCompiler
