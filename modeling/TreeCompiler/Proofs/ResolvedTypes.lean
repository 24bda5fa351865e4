import TreeCompiler.Proofs.StepLogics
import TreeCompiler.Proofs.Terms

/-!
# Types that stay resolved

What an id means it means for good: later constants and placeholders do not change it, and neither
does the filling of a placeholder. An id that depends on no open placeholder means something, and a
filled placeholder means what it was filled with.
-/

namespace TreeCompiler

open Step

variable {count n : Nat} {k : Constant} {α : Type}

namespace Pool

variable {p b t later : Pool} {id next tgt : ConstId} {term : Term}

/-- What an id means in a pool it means in a later one. -/
def Retains (b t : Pool) : Prop :=
  ∀ id term, b.Means id term → t.Means id term

theorem Retains.refl (p : Pool) : p.Retains p := fun _ _ means => means

theorem Retains.trans (he : b.Retains t) (hf : t.Retains later) :
    b.Retains later := fun id term means => hf id term (he id term means)

theorem Extends.retains (hg : t.Extends b) : b.Retains t :=
  fun _ _ means => means.extends hg

theorem leads_of_get (hf : p.get id = .ok (some k)) :
    ∃ count tgt, p.Leads count id tgt ∧ p.entry? tgt = some (.value k) := by
  obtain ⟨tgt, followed, hp⟩ := follow_of_get hf
  obtain ⟨count, hl⟩ := Leads.of_followWithin followed
  exact ⟨count, tgt, hl, hp⟩

theorem Means.of_link {name : String} (means : p.Means next term)
    (filled : p.entry? id = some (.placeholder name (some next))) : p.Means id term := by
  cases means with
  | intro hf arity each =>
    obtain ⟨count, tgt, hl, hp⟩ := leads_of_get hf
    exact .intro (get_of_leads (.link filled hl) hp) arity each

theorem Leads.advances (advances : b.Advances t) (hl : b.Leads count id tgt)
    (hf : b.entry? tgt = some (.value k)) : t.Leads count id tgt := by
  induction hl with
  | stop hp last =>
    rcases advances.kept _ _ hp with kept | ⟨name, _, wasOpen, -⟩
    · exact .stop kept last
    · rw [hf] at wasOpen
      simp at wasOpen
  | link filled _ ih =>
    rcases advances.kept _ _ filled with kept | ⟨name, _, wasOpen, -⟩
    · exact .link kept (ih hf)
    · rw [filled] at wasOpen
      simp at wasOpen

/-- Whatever a call does to a pool, an id keeps its meaning. -/
theorem Advances.retains (advances : b.Advances t) : b.Retains t := by
  intro id term means
  induction means with
  | intro hf arity _ ih =>
    obtain ⟨count, tgt, hl, hp⟩ := leads_of_get hf
    refine .intro (get_of_leads (hl.advances advances hp) ?_) arity ih
    rcases advances.kept _ _ hp with kept | ⟨name, _, wasOpen, -⟩
    · exact kept
    · rw [hp] at wasOpen
      simp at wasOpen

theorem allM_eq_true {check : ConstId → Except PoolError Bool} {ids : List ConstId}
    (all : ids.allM check = .ok true) : ∀ id ∈ ids, check id = .ok true := by
  induction ids with
  | nil => simp
  | cons id rest ih =>
    rw [List.allM] at all
    cases here : check id with
    | error error => simp [here, bind, Except.bind] at all
    | ok ans =>
      cases ans with
      | false => simp [here, bind, Except.bind, pure, Except.pure] at all
      | true =>
        simp only [here, bind, Except.bind] at all
        simpa [here] using ih all

theorem means_of_isResolvedWithin (res : p.isResolvedWithin n id = .ok true) :
    ∃ term, p.Means id term := by
  induction n generalizing id with
  | zero => simp [isResolvedWithin] at res
  | succ n ih =>
    unfold isResolvedWithin at res
    cases hf : p.get id with
    | error error => simp [hf, bind, Except.bind] at res
    | ok k =>
      cases k with
      | none => simp [hf, bind, Except.bind, pure, Except.pure] at res
      | some k =>
        simp only [hf, bind, Except.bind] at res
        obtain ⟨ps, all⟩ := exists_forall₂ fun c mem =>
          ih (allM_eq_true res c mem)
        exact ⟨_, .intro hf all.length_eq (getElem?_of_forall₂ all)⟩

/-- An id that depends on no open placeholder means something. -/
theorem means_of_isResolved (res : p.isResolved id = .ok true) :
    ∃ term, p.Means id term := means_of_isResolvedWithin res

/-- The steps of a walk over parts leave a trace of what each of them found. -/
theorem mapM_trace {step : ConstId → PoolM ConstId} (grows : ∀ id, PoolM.Grows (step id))
    {children twins : List ConstId} (ran : children.mapM step b = .ok twins t) :
    twins.length = children.length ∧ t.Extends b ∧ ∀ (i : Nat) c, children[i]? = some c →
      ∃ twin fst snd, twins[i]? = some twin ∧ step c fst = .ok twin snd ∧ t.Extends snd := by
  induction children generalizing b twins with
  | nil =>
    rw [List.mapM_nil] at ran
    cases ran
    exact ⟨rfl, Extends.refl _, by simp⟩
  | cons c rest ih =>
    rw [List.mapM_cons] at ran
    obtain ⟨twin, mid, ranFirst, ran⟩ := bind_ok.mp ran
    obtain ⟨others, ranRest, rfl⟩ := bind_pure_ok.mp ran
    obtain ⟨arity, grownRest, each⟩ := ih ranRest
    have grownFirst := (grows c b).keeps b twin mid (Extends.refl _) ranFirst
    refine ⟨by simp [arity], grownRest.trans grownFirst, ?_⟩
    intro i x hf
    cases i with
    | zero =>
      cases hf
      exact ⟨twin, b, mid, rfl, ranFirst, grownRest⟩
    | succ i => exact each i x (by simpa using hf)

theorem entry?_of_entry {entry : Entry} (hf : p.entry id = .ok entry) :
    p.entry? id = some entry := by
  unfold Pool.entry at hf
  cases here : p.entry? id <;> simp_all

/-! ### Links end -/

/-- How the walk for a canonical twin went: it stopped at an open placeholder, or it rebuilt a
constant from the twins of its parts. -/
theorem canonicalWithin_ok {twin : ConstId}
    (ran : PoolM.canonicalWithin (n + 1) id b = .ok twin t) : ∃ tgt, b.follow id = .ok tgt ∧
      ((∃ name, b.entry? tgt = some (.placeholder name none) ∧ twin = tgt ∧ t = b) ∨
      ∃ k twins mid, b.entry? tgt = some (.value k) ∧
        k.children.mapM (PoolM.canonicalWithin n) b = .ok twins mid ∧
        if k.withParts twins = k then twin = tgt ∧ t = mid
        else mid.intern (k.withParts twins) = (twin, t)) := by
  unfold PoolM.canonicalWithin at ran
  obtain ⟨tgt, eq, hl, ran⟩ := bind_ok.mp ran
  obtain ⟨followed, rfl⟩ := PoolM.read_ok.mp hl
  obtain ⟨entry, eq, hl, ran⟩ := bind_ok.mp ran
  obtain ⟨hf, rfl⟩ := PoolM.read_ok.mp hl
  have hp := entry?_of_entry hf
  refine ⟨tgt, followed, ?_⟩
  cases entry with
  | placeholder name old =>
    obtain ⟨count, hle⟩ := Leads.of_followWithin followed
    obtain ⟨entry, foundLast, last⟩ := hle.last
    obtain rfl : entry = .placeholder name old := by simpa [hp] using foundLast.symm
    obtain rfl : old = none := last
    cases ran
    exact .inl ⟨name, hp, rfl, rfl⟩
  | value k =>
    obtain ⟨rebuilt, mid, ranParts, ran⟩ := bind_ok.mp ran
    rw [Constant.mapChildrenM_eq] at ranParts
    obtain ⟨twins, ranTwins, rfl⟩ := map_ok.mp ranParts
    refine .inr ⟨k, twins, mid, hp, ranTwins, ?_⟩
    by_cases eq : k.withParts twins = k
    · rw [if_pos eq] at ran ⊢
      cases ran
      exact ⟨rfl, rfl⟩
    · rw [if_neg eq] at ran ⊢
      exact modifyGet_ok.mp ran

/-- Whatever is found as the canonical twin of an id has its expansion and needs no placeholder for
it. -/
theorem expands_of_canonicalWithin {twin : ConstId}
    (ran : PoolM.canonicalWithin n id b = .ok twin t) :
    ∃ ex, t.Expands true id ex ∧ t.Expands false twin ex := by
  induction n generalizing id twin b t with
  | zero => simp [PoolM.canonicalWithin] at ran
  | succ n ih =>
    obtain ⟨tgt, followed, stopped | rebuilt⟩ := canonicalWithin_ok ran
    · obtain ⟨name, ho, rfl, rfl⟩ := stopped
      obtain ⟨count, hl⟩ := Leads.of_followWithin followed
      exact ⟨_, hl.expands (.hole ho), .hole ho⟩
    · obtain ⟨k, twins, mid, hf, ranTwins, ended⟩ := rebuilt
      obtain ⟨arity, hg, trace⟩ := mapM_trace (PoolM.grows_canonicalWithin n) ranTwins
      have each : ∀ pair ∈ k.children.zip twins, ∃ ex,
          mid.Expands true pair.1 ex ∧ mid.Expands false pair.2 ex := by
        intro pair mem
        obtain ⟨i, hf⟩ := List.mem_iff_getElem?.mp mem
        obtain ⟨hasChild, hasTwin⟩ := List.getElem?_zip_eq_some.mp hf
        obtain ⟨_, fst, snd, isTwin, ranChild, grownChild⟩ := trace i pair.1 hasChild
        cases hasTwin.symm.trans isTwin
        obtain ⟨ex, hx, unfolds⟩ := ih ranChild
        exact ⟨ex, hx.mono grownChild, unfolds.mono grownChild⟩
      -- the twin is the constant rebuilt from these twins, at its old place or at a new one
      obtain ⟨he, extd⟩ : t.entry? twin = some (.value (k.withParts twins)) ∧
          t.Extends mid := by
        split at ended
        · rename_i eq
          obtain ⟨rfl, rfl⟩ := ended
          rw [eq]
          exact ⟨hg.holds _ _ hf, Extends.refl _⟩
        · have he := Extends.entry?_intern mid (k.withParts twins)
          have extd := Extends.intern mid (k.withParts twins)
          rw [ended] at he extd
          exact ⟨he, extd⟩
      obtain ⟨ps, all⟩ := exists_forall₂ each
      obtain ⟨count, hl⟩ := Leads.of_followWithin ((extd.trans hg).follow followed)
      have children := List.forall₂_map_left_iff.mpr (all.imp fun _ _ both => both.1.mono extd)
      have unfolded := List.forall₂_map_left_iff.mpr (all.imp fun _ _ both => both.2.mono extd)
      rw [List.map_fst_zip arity.ge] at children
      rw [List.map_snd_zip arity.le, ← Constant.children_withParts arity] at unfolded
      refine ⟨_, hl.expands (.of_parts ((extd.trans hg).holds _ _ hf) children), ?_⟩
      rw [← Constant.shell_withParts arity]
      exact .of_parts he unfolded

theorem expands_of_canonical {twin : ConstId} (ran : PoolM.canonical id b = .ok twin t) :
    ∃ ex, t.Expands true id ex ∧ t.Expands false twin ex := by
  obtain ⟨size, eq, hl, ran⟩ := bind_ok.mp ran
  exact expands_of_canonicalWithin ran

/-- What an id expands to is what it means, if no placeholder is open in it. -/
theorem Expands.means (hx : p.Expands true id term.expansion) : p.Means id term := by
  generalize he : term.expansion = ex at hx
  induction hx generalizing term with
  | hole => cases term; simp [Term.expansion] at he
  | link _ hf _ ih => exact (ih he).of_link hf
  | @node id k ps hf arity _ ih =>
    obtain ⟨l, originals⟩ := term
    rw [Term.expansion] at he
    injection he with sameLabel sameParts
    subst sameLabel sameParts
    refine .intro (get_of_value hf) (by simpa using arity) fun i c part hasChild hasPart => ?_
    exact ih i c part.expansion hasChild (by simp [hasPart]) rfl

theorem means_of_fill {hole : ConstId}
    (ran : PoolM.fill hole tgt b = .ok () t) (means : b.Means tgt term) :
    b.Retains t ∧ t.Means hole term := by
  have retains : b.Retains t := by
    have advances := advances_called b (.fill hole tgt)
    have ended : b.called (.fill hole tgt) = t := by
      show endState (PoolM.fill hole tgt b) = t
      rw [ran]
      rfl
    rw [ended] at advances
    exact advances.retains
  refine ⟨retains, ?_⟩
  obtain ⟨entry, eq, hl, ran⟩ := bind_ok.mp ran
  obtain ⟨hf, rfl⟩ := PoolM.read_ok.mp hl
  have hp : b.entry? hole = some entry := by
    unfold Pool.entry at hf
    cases here : b.entry? hole <;> simp_all
  cases entry with
  | value k => simp at ran
  | placeholder name old =>
    obtain ⟨twin, mid, ranTwin, ran⟩ := bind_ok.mp ran
    obtain ⟨twin', middle', ranTwin', hg, spells⟩ := means.canonical
    rw [ranTwin] at ranTwin'
    injection ranTwin' with sameTwin sameMiddle
    subst sameTwin sameMiddle
    have kept := hg.holds _ _ hp
    dsimp only at ran
    split at ran
    · simp [bind_ok] at ran
    · cases old with
      | none =>
        cases ran
        have filled := entry?_setTarget kept twin hole
        rw [if_pos rfl] at filled
        refine Means.of_link ?_ filled
        exact (advances_setTarget (Extends.refl mid) kept twin).retains _ _ spells.means
      | some old =>
        dsimp only at ran
        split at ran
        · obtain ⟨previous, last, ranPrevious, ran⟩ := bind_ok.mp ran
          split at ran
          · simp at ran
          · rename_i he
            obtain ⟨-, rfl⟩ := pure_ok.mp ran
            obtain rfl : previous = twin := by simpa using he
            have hfu := (PoolM.grows_canonical old mid).keeps mid previous last
              (Extends.refl _) ranPrevious
            obtain ⟨ex, hx, unfolds⟩ := expands_of_canonical ranPrevious
            obtain rfl := unfolds.unique (spells.extends hfu).expands
            exact hx.means.of_link (hfu.holds _ _ kept)
        · rename_i he
          cases ran
          obtain rfl : old = twin := by simpa using he
          exact spells.means.of_link kept

theorem means_intern_leaf (p : Pool) (k : Constant) (leaf : k.children = []) :
    (p.intern k).2.Means (p.intern k).1 (.node k.shell []) :=
  means_intern k (by rw [leaf]; exact .nil)

end Pool

/-! ### Type expressions -/

namespace Work

variable (w : Work) (tree : Tree) (p : Pool) (diag : Diagnostic)

@[simp] theorem withTree_pool : (w.withTree tree).pool = w.pool := rfl
@[simp] theorem withTree_tree : (w.withTree tree).tree = tree := rfl
@[simp] theorem withPool_tree : (w.withPool p).tree = w.tree := rfl
@[simp] theorem withPool_pool : (w.withPool p).pool = p := rfl
@[simp] theorem reported_tree : (w.reported diag).tree = w.tree := rfl

end Work

/-- Work that differs at most in its pool, which has grown. -/
def Work.Grown (b t : Work) : Prop :=
  ∃ p : Pool, p.Extends b.pool ∧ t = b.withPool p

namespace Work.Grown

variable {b mid t : Work}

theorem refl (w : Work) : w.Grown w := ⟨w.pool, .refl _, rfl⟩

theorem trans (he : b.Grown mid) (later : mid.Grown t) : b.Grown t := by
  obtain ⟨fst, grownFirst, rfl⟩ := he
  obtain ⟨snd, grownSecond, rfl⟩ := later
  exact ⟨snd, grownSecond.trans grownFirst, rfl⟩

theorem tree (hg : b.Grown t) : t.tree = b.tree := by
  obtain ⟨p, -, rfl⟩ := hg
  rfl

theorem pool (hg : b.Grown t) : t.pool.Extends b.pool := by
  obtain ⟨p, extd, rfl⟩ := hg
  exact extd

end Work.Grown

namespace Resolution

open WorkM

variable {w t : Work}

theorem always_grown_onPool {step : PoolM α} (grows : PoolM.Grows step) (s : Work) :
    Always s.Grown (onPool step) := by
  intro w hg
  have extd := grows w.pool w.pool (Pool.Extends.refl _)
  refine hg.trans ?_
  unfold onPool
  cases ran : step w.pool <;> rw [ran] at extd <;> exact ⟨_, extd, rfl⟩

/-- Looking at a type expression changes nothing but the pool, and that only by growing. -/
theorem always_grown_currentType (id : NodeId) (s : Work) : Always s.Grown (currentType id) :=
  PoolLogic.currentType { LookLogic.always with onPool := fun grows => always_grown_onPool grows s } id

theorem attempt_ok {step : WorkM α} {ans : Except Defect α} (done : attempt step w = .ok ans t) :
    t = endState (step w) ∧ ∀ a, ans = .ok a → step w = .ok a t := by
  unfold attempt at done
  cases ran : step w <;> rw [ran] at done <;> cases done <;> simp [endState]

theorem typedefType_ok {typedef : NodeId} {ans : Option ConstId}
    (done : typedefType typedef w = .ok ans t) :
    w.Grown t ∧ ∀ ty, ans = some ty → ∃ term, t.pool.Means ty term := by
  have unknown : ∀ {mid : Work}, w.Grown mid → (pure none : WorkM (Option ConstId)) mid =
      .ok ans t → w.Grown t ∧ ∀ ty, ans = some ty → ∃ term, t.pool.Means ty term := by
    intro mid hg done
    cases done
    exact ⟨hg, by simp⟩
  replace done := rest_ok done rfl
  match got : w.tree.stmt? typedef with
  | some (.typedef name ty) =>
    rw [got] at done
    obtain ⟨current, mid, attempted, done⟩ := bind_ok.mp done
    obtain ⟨ended, -⟩ := attempt_ok attempted
    have hg : w.Grown mid := by
      rw [ended]
      exact always_grown_currentType _ w w (.refl w)
    match current with
    | .ok (some current) =>
      replace done := rest_ok done rfl
      match res : mid.pool.isResolved current with
      | .ok true =>
        simp only [res] at done
        obtain ⟨twin?, attempted, rfl⟩ := bind_pure_ok.mp done
        obtain ⟨ended, succeeded⟩ := attempt_ok attempted
        have hf : mid.Grown t := by
          rw [ended]
          exact always_grown_onPool (PoolM.grows_canonical _) mid mid (.refl mid)
        refine ⟨hg.trans hf, fun twin isTwin => ?_⟩
        cases twin? with
        | error error => simp [Except.toOption] at isTwin
        | ok got =>
          obtain rfl : got = twin := by simpa [Except.toOption] using isTwin
          obtain ⟨p, ran, rfl⟩ := onPool_ok.mp (succeeded got rfl)
          obtain ⟨term, means⟩ := Pool.means_of_isResolved res
          obtain ⟨twin, t, ran', -, spells⟩ := means.canonical
          rw [ran] at ran'
          injection ran' with sameTwin samePool
          subst sameTwin samePool
          exact ⟨term, spells.means⟩
      | .ok false | .error _ => exact unknown hg (by simpa [res] using done)
    | .ok none | .error _ => exact unknown hg done
  | none => exact unknown (.refl w) (by simpa [got] using done)
  | some (.container ..) | some (.method ..) | some (.block _) | some (.evaluate _)
  | some (.varDecl ..) | some (.assign ..) | some (.ifElse ..) | some (.whileLoop ..)
  | some (.forLoop ..) | some (.switch ..) | some (.arm ..) | some (.labeled ..)
  | some (.breakOut _) | some (.continueLoop _) | some (.returnValues _) | some (.condDecl ..) =>
    exact unknown (.refl w) (by simpa [got] using done)

end Resolution

end TreeCompiler
