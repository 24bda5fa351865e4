import TreeCompiler.Proofs.ResolvedNames

/-!
# When a name can be resolved

The rules by which a name or named type of a unit is known, given the nodes that are known already.
The nodes that can be resolved are the least set closed under them. The order of the nodes plays no
part in the rules, and a name that is an alias of itself through any number of others satisfies
none.
-/

namespace TreeCompiler.Tree

variable {tree : Tree} {table : SymbolTable} {sc : String} {known more : Set NodeId}
  {id part : NodeId}

/-- Whether a node is a named type. -/
def isNamed (tree : Tree) (id : NodeId) : Bool :=
  match tree.type? id with
  | some (.named ..) => true
  | _ => false

/-- The name that a node consists of, if it is written without dots. -/
def plainName? (tree : Tree) (id : NodeId) : Option String :=
  match tree.form? id with
  | some (.type (.named [name] _)) => some name
  | some (.expr (.name name)) => if Text.hasDot name then none else some name
  | _ => none

/-- The local that a node refers to. Only a name in an expression refers to one. -/
def localAt? (tree : Tree) (id : NodeId) : Option NodeId :=
  match tree.expr? id with
  | some (.name name) => tree.localOf id name
  | _ => none

/-- The type expression of the type name that a node refers to, if it does. -/
def AliasOf (tree : Tree) (id ty : NodeId) : Prop :=
  tree.localAt? id = none ∧ ∃ name title typedef, tree.plainName? id = some name ∧
    tree.findTypedef id name = some typedef ∧ tree.stmt? typedef = some (.typedef title ty)

/-- Neither a local nor a type name nor a built-in class is meant by a node. -/
structure MeansOutside (tree : Tree) (id : NodeId) : Prop where
  asks : tree.isDeferrable id = true
  noLocal : tree.localAt? id = none
  noTypedef : ∀ name, tree.plainName? id = some name → tree.findTypedef id name = none
  noBuiltin : ∀ name, tree.plainName? id = some name → name ∉ builtinTypes

/-- A node is known, given the nodes that are known already: its name finds a local, a type name
whose type is made of known types, a built-in class, or a symbol. Where a type is called for, the
symbol has to be one. -/
inductive Grants (tree : Tree) (table : SymbolTable) (sc : String) (known : Set NodeId)
    (id : NodeId) : Prop
  | ofLocal {decl : NodeId} (hf : tree.localAt? id = some decl)
  | ofTypedef {ty : NodeId} (aliased : tree.AliasOf id ty)
      (ps : ∀ part, tree.Below ty part → tree.isNamed part = true → part ∈ known)
      (clean : ∀ part text, tree.Below ty part → tree.type? part ≠ some (.bad text))
  | ofBuiltin {name : String} (noLocal : tree.localAt? id = none) (hp : tree.plainName? id = some name)
      (noTypedef : tree.findTypedef id name = none) (builtin : name ∈ builtinTypes)
  | ofSymbol {comp : Component} (outside : tree.MeansOutside id)
      (hf : (table.lookup sc (tree.unresolvedName id)).1 = .found comp)
      (fits : tree.isNamed id = true → ∃ ty, comp = .type ty)

theorem Grants.imp (granted : tree.Grants table sc known id)
    (wider : ∀ ty part, tree.AliasOf id ty → tree.Below ty part → tree.isNamed part = true →
      part ∈ known → part ∈ more) : tree.Grants table sc more id := by
  cases granted with
  | ofLocal hf => exact .ofLocal hf
  | ofTypedef aliased ps clean =>
    exact .ofTypedef aliased (fun part hb hn => wider _ part aliased hb hn (ps part hb hn)) clean
  | ofBuiltin noLocal hp noTypedef builtin => exact .ofBuiltin noLocal hp noTypedef builtin
  | ofSymbol outside hf fits => exact .ofSymbol outside hf fits

theorem AliasOf.unique {fst snd : NodeId} (aliased : tree.AliasOf id fst)
    (x : tree.AliasOf id snd) : fst = snd := by
  obtain ⟨-, name, title, typedef, hp, hv, defined⟩ := aliased
  obtain ⟨-, name', title', typedef', plain', visible', defined'⟩ := x
  obtain rfl : name = name' := Option.some.inj (hp.symm.trans plain')
  obtain rfl : typedef = typedef' := Option.some.inj (hv.symm.trans visible')
  rw [defined] at defined'
  simp only [Option.some.injEq, Stmt.typedef.injEq] at defined'
  exact defined'.2

theorem AliasOf.grants_iff {ty : NodeId} (aliased : tree.AliasOf id ty) :
    tree.Grants table sc known id ↔
      (∀ part, tree.Below ty part → tree.isNamed part = true → part ∈ known) ∧
        ∀ part text, tree.Below ty part → tree.type? part ≠ some (.bad text) := by
  refine ⟨fun granted => ?_, fun ⟨ps, clean⟩ => .ofTypedef aliased ps clean⟩
  cases granted with
  | ofLocal hf => simp [aliased.1] at hf
  | ofTypedef x ps clean =>
    obtain rfl := aliased.unique x
    exact ⟨ps, clean⟩
  | ofBuiltin noLocal hp noTypedef builtin =>
    obtain ⟨-, name, title, typedef, plain', hv, -⟩ := aliased
    cases hp.symm.trans plain'
    simp [noTypedef] at hv
  | ofSymbol outside hf fits =>
    obtain ⟨-, name, title, typedef, hp, hv, -⟩ := aliased
    simp [outside.noTypedef name hp] at hv

/-- A node that means nothing in the unit is known with its symbol. -/
theorem MeansOutside.grants_iff (outside : tree.MeansOutside id) : tree.Grants table sc known id ↔
      ∃ comp, (table.lookup sc (tree.unresolvedName id)).1 = .found comp ∧
        (tree.isNamed id = true → ∃ ty, comp = .type ty) := by
  refine ⟨fun granted => ?_, fun ⟨comp, hf, fits⟩ => .ofSymbol outside hf fits⟩
  cases granted with
  | ofLocal hf => simp [outside.noLocal] at hf
  | ofTypedef aliased ps clean =>
    obtain ⟨-, name, title, typedef, hp, hv, -⟩ := aliased
    simp [outside.noTypedef name hp] at hv
  | ofBuiltin noLocal hp noTypedef builtin => exact absurd builtin (outside.noBuiltin _ hp)
  | ofSymbol _ hf fits => exact ⟨_, hf, fits⟩

/-- The nodes that are known in one step. -/
def grants (tree : Tree) (table : SymbolTable) (sc : String) : Set NodeId →o Set NodeId where
  toFun known := { id | tree.Grants table sc known id }
  monotone' _ _ wider _ granted := Grants.imp granted fun _ _ _ _ _ held => wider held

/-- The nodes that can be resolved. -/
def resolvable (tree : Tree) (table : SymbolTable) (sc : String) : Set NodeId :=
  (tree.grants table sc).lfp

theorem mem_resolvable (granted : tree.Grants table sc (tree.resolvable table sc) id) :
    id ∈ tree.resolvable table sc := by
  have closed := (tree.grants table sc).map_lfp
  exact closed.le granted

theorem resolvable_subset (closed : ∀ id, tree.Grants table sc known id → id ∈ known) :
    tree.resolvable table sc ⊆ known :=
  (tree.grants table sc).lfp_le closed

/-! ### Cycles of aliases -/

/-- A node is a part of the type that another node is an alias of. -/
def Supports (tree : Tree) (part id : NodeId) : Prop :=
  ∃ ty, tree.AliasOf id ty ∧ tree.Below ty part ∧ tree.isNamed part = true

/-- A node that can be resolved leans on others only to a finite depth. -/
theorem acc_of_resolvable (mem : id ∈ tree.resolvable table sc) : Acc tree.Supports id := by
  refine resolvable_subset (fun id granted => ?_) mem
  refine Acc.intro id ?_
  rintro part ⟨ty, aliased, hb, hn⟩
  exact (aliased.grants_iff.mp granted).1 part hb hn

/-- An alias of itself, through any number of others, cannot be resolved. -/
theorem not_resolvable_of_cycle (cycle : Relation.TransGen tree.Supports id id) :
    id ∉ tree.resolvable table sc := by
  intro mem
  have acc := (acc_of_resolvable mem).transGen
  clear mem
  induction acc with
  | intro id _ ih => exact ih id cycle cycle

end TreeCompiler.Tree
