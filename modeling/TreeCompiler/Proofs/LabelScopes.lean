import TreeCompiler.Proofs.TreeChanges
import TreeCompiler.Proofs.WorkSteps

/-!
# Label scopes

Label scopes are taken from a counter that wraps around. As a tree has no more nodes than the
counter has values, no two nodes get the same one.
-/

namespace TreeCompiler

/-- The nodes that took a label scope, the latest first. The scope of each follows from its age. -/
structure Work.Scopes (w : Work) (owners : List NodeId) : Prop where
  unique : owners.Nodup
  taken : ∀ own ∈ owners, (w.tree.facts own).labelScope.isSome
  aged : ∀ id sc, (w.tree.facts id).labelScope = some sc →
    ∃ age, owners[age]? = some id ∧ sc = w.labels - UInt32.ofNat (age + 1)

/-- Label scopes were taken from the counter one by one. -/
def Work.Labeled (w : Work) : Prop := ∃ owners, w.Scopes owners

theorem Tree.length_le_size {tree : Tree} {ids : List NodeId} (hu : ids.Nodup)
    (hp : ∀ id ∈ ids, tree.Has id) : ids.length ≤ tree.size := by
  have hd : (ids.map NodeId.index).Nodup := by
    refine List.Nodup.map ?_ hu
    rintro ⟨fst⟩ ⟨snd⟩ he
    exact congrArg NodeId.mk he
  have subset : ids.map NodeId.index ⊆ List.range tree.size := by
    intro i mem
    obtain ⟨id, hi, rfl⟩ := List.mem_map.mp mem
    exact List.mem_range.mpr (tree.has_iff_lt.mp (hp id hi))
  simpa using (List.subperm_of_subset hd subset).length_le

namespace Work

variable {w : Work}

theorem has_of_labelScope {id : NodeId} (taken : (w.tree.facts id).labelScope.isSome) :
    w.tree.Has id := by
  by_contra absent
  rw [w.tree.facts_of_not_has absent] at taken
  simp at taken

theorem Scopes.length_le {owners : List NodeId} (scopes : w.Scopes owners) :
    owners.length ≤ w.tree.size :=
  Tree.length_le_size scopes.unique fun own hi => has_of_labelScope (scopes.taken own hi)

namespace Labeled

theorem of_blank (blank : ∀ id, (w.tree.facts id).labelScope = none) : w.Labeled :=
  ⟨[], List.nodup_nil, by simp, fun id sc has => by simp [blank] at has⟩

theorem injective (labeled : w.Labeled) (small : w.tree.size ≤ UInt32.size) {fst snd : NodeId}
    {sc : UInt32} (has : (w.tree.facts fst).labelScope = some sc)
    (also : (w.tree.facts snd).labelScope = some sc) : fst = snd := by
  obtain ⟨owners, scopes⟩ := labeled
  have few := scopes.length_le
  obtain ⟨age, here, he⟩ := scopes.aged fst sc has
  obtain ⟨x, there, equal'⟩ := scopes.aged snd sc also
  have bound := (List.getElem?_eq_some_iff.mp here).1
  have bound' := (List.getElem?_eq_some_iff.mp there).1
  have eq : UInt32.ofNat (age + 1) = UInt32.ofNat (x + 1) := by
    grind
  have ages : age = x := by
    have vals := congrArg UInt32.toNat eq
    simp only [UInt32.toNat_ofNat'] at vals
    have size : UInt32.size = 4294967296 := rfl
    omega
  subst ages
  exact Option.some.inj (here.symm.trans there)

theorem congr {t : Work} (labeled : w.Labeled) (labels : t.labels = w.labels)
    (eq : ∀ id, (t.tree.facts id).labelScope = (w.tree.facts id).labelScope) : t.Labeled := by
  obtain ⟨owners, hu, taken, aged⟩ := labeled
  refine ⟨owners, hu, fun own mem => ?_, fun id sc has => ?_⟩
  · rw [eq]
    exact taken own mem
  · rw [labels]
    exact aged id sc (by rwa [← eq])

theorem withScope (labeled : w.Labeled) {own : NodeId} (hi : w.tree.Has own) :
    (w.withScope own).Labeled := by
  cases hk : (w.tree.facts own).labelScope with
  | some sc =>
    have eq : w.withScope own = w := by simp [Work.withScope, Tree.labelScope, hk]
    rwa [eq]
  | none =>
    obtain ⟨owners, hu, taken, aged⟩ := labeled
    have eq : w.withScope own = { w with
          tree := w.tree.modifyFacts own fun facts => { facts with labelScope := some w.labels }
          labels := w.labels + 1 } := by
      simp [Work.withScope, Tree.labelScope, hk]
    rw [eq]
    have others : ∀ id, id ≠ own → (w.tree.modifyFacts own fun facts =>
        { facts with labelScope := some w.labels }).facts id = w.tree.facts id :=
      fun id ne => w.tree.facts_modify_ne ne _
    have new : own ∉ owners := by
      intro mem
      have hf := taken own mem
      simp [hk] at hf
    refine ⟨own :: owners, List.nodup_cons.mpr ⟨new, hu⟩, fun id mem => ?_, fun id sc has => ?_⟩
    · by_cases self : id = own
      · subst self
        simp [w.tree.facts_modify_same hi]
      · rw [others id self]
        exact taken id ((List.mem_cons.mp mem).resolve_left self)
    · by_cases self : id = own
      · subst self
        rw [w.tree.facts_modify_same hi] at has
        refine ⟨0, rfl, ?_⟩
        grind
      · rw [others id self] at has
        obtain ⟨age, hf, rfl⟩ := aged id sc has
        have next : UInt32.ofNat (age + 1 + 1) = UInt32.ofNat (age + 1) + 1 := by
          simp
        grind

end Labeled

end Work

end TreeCompiler
