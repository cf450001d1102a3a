import LuaInfer.Proofs.Apart
import LuaInfer.Proofs.Instance
import LuaInfer.Proofs.Journal
import LuaInfer.Proofs.Lasting
/-!
# Resolving a substitution is substitution

The rule of a substitution infers types from the arguments of a call and merges the result type alternative by alternative,
while other slots are resolved on the way. Where no look-up met a slot under way and no instantiation was cut off
(`Session.Clean`), what comes out is `Arena.Instance`: `Session.compileGeneric_instance`. Then every slot that a rule has read is
finished, unions of finished slots stay as they are (`NodeCache.Calm`), and so an instance that was right once stays right.

Two things can spoil this from outside: a node that a query merges, and a query for a substitution that does not exist yet. The
latter finds nothing, and its slot is finished when the substitution is made. `Session.Asked` leaves the former out and keeps a
list of the latter; `Session.compileGeneric_misses_instance` shows both.

All this is said of a resolution that returns. One that looks for a member of what an argument has may not: after `x = id(x)`, the
substitution of `id(x.k)` is never resolved (`Session.never_endless`). Where no substitution contains itself, every query returns
(`Session.askAll_returns_grounded`).
-/

namespace LuaInfer

/-! ## How deep instantiations were -/

/-- Slots of substitutions. -/
def SlotKey.isGeneric : SlotKey → Bool
  | .generic _ => true
  | _ => false

/-- How many of the look-ups under way are for substitutions. -/
def Event.depth (stack : List (Nat × SlotKey)) : Nat := stack.countP fun lookup => lookup.2.isGeneric

namespace Session

variable {env : Env} {s s' t : Session} {T : Set SlotKey} {early : Set GenericId}
  {key target k : SlotKey} {n : TypeNode}

/-- Whenever the rule of a substitution was run, fewer of them than the limit were under way. -/
def Shallow (s : Session) : Prop :=
  ∀ before query i kind after stack, s.journal.toList = before ++ .started query (.generic i) kind :: after →
    (∃ members, .ended query (.generic i) members false ∈ after) → Event.settle [] before = some stack →
    Event.depth stack < Limits.maxGenericDepth.toNat

/-- No look-up has met a slot under way, and no instantiation was cut off. -/
structure Clean (s : Session) : Prop where
  cycles : s.stats.cycleHits = 0
  shallow : s.Shallow

theorem Clean.of_journal (h : s'.Clean) (hj : ∃ es, s'.journal.toList = s.journal.toList ++ es)
    (hc : s.stats.cycleHits ≤ s'.stats.cycleHits) : s.Clean := by
  refine ⟨Nat.le_zero.1 (h.cycles ▸ hc), fun before query i kind after stack heq ⟨members, hended⟩ => ?_⟩
  obtain ⟨es, hes⟩ := hj
  refine h.shallow before query i kind (after ++ es) stack (by rw [hes, heq]; simp) ⟨members, by simp [hended]⟩

theorem Clean.of_grows (h : s'.Clean) (hg : s.Grows T s') : s.Clean := by
  obtain ⟨es, hes, -⟩ := hg.journal
  exact h.of_journal ⟨es, hes⟩ hg.cycles

/-- The counter of instantiations agrees with the look-ups under way. -/
structure Nested (s : Session) : Prop where
  stack : ∃ stack, Event.settle [] s.journal.toList = some stack ∧ Event.depth stack = s.depth.depth
  limit : s.depth.maxDepth = Limits.maxGenericDepth

theorem Nested.of_books {es : List Event} (h : s.Nested) (hb : Books s s' es) (hd : s'.depth = s.depth) : s'.Nested := by
  obtain ⟨stack, hsettle, hdepth⟩ := h.stack
  refine ⟨⟨stack, ?_, hd ▸ hdepth⟩, hd ▸ h.limit⟩
  rw [hb.journal, Event.settle_append, hsettle, Option.bind_some, hb.recorded.balanced]

/-- The look-up of a declaration or a result is under way. -/
theorem Nested.start (h : s.Nested) (hkey : key.isGeneric = false) (kind : String) : (s.start key kind).Nested := by
  obtain ⟨stack, hsettle, hdepth⟩ := h.stack
  refine ⟨⟨(s.lookups + 1, key) :: stack, ?_, ?_⟩, h.limit⟩
  · simp [Session.start, noteStart, Event.settle_append, hsettle, Event.settle]
  · rw [Event.depth, List.countP_cons, hkey]
    exact hdepth

/-- An instantiation is under way. -/
theorem Nested.enter (h : s.Nested) (hkey : key.isGeneric = true) (kind : String) {depth : DepthCounter}
    (he : s.depth.enter = (true, depth)) : Nested { s.start key kind with depth } := by
  obtain ⟨stack, hsettle, hdepth⟩ := h.stack
  unfold DepthCounter.enter at he
  split at he
  · cases he
  · cases he
    refine ⟨⟨(s.lookups + 1, key) :: stack, ?_, ?_⟩, h.limit⟩
    · simp [Session.start, noteStart, Event.settle_append, hsettle, Event.settle]
    · rw [Event.depth, List.countP_cons, if_pos hkey]
      exact congrArg (· + 1) hdepth

/-- An instantiation that is cut off is seen in the journal. -/
theorem Nested.not_shallow_of_refused (h : s.Nested) (he : s.depth.enter.1 = false) {i : GenericId} {kind : String} :
    ¬ ((s.start (.generic i) kind).finish (s.start (.generic i) kind).lookups (.generic i)).Shallow := by
  obtain ⟨stack, hsettle, hdepth⟩ := h.stack
  intro hshallow
  have hfull : s.depth.maxDepth.toNat ≤ s.depth.depth := by
    unfold DepthCounter.enter at he
    split at he
    · assumption
    · cases he
  have hlt := hshallow s.journal.toList (s.lookups + 1) i kind _ stack
    (by simp [Session.start, Session.finish, noteStart, noteEnd]; rfl) ⟨_, List.mem_singleton.2 rfl⟩ hsettle
  rw [hdepth, ← h.limit] at hlt
  omega

/-! ## Sessions in which instances are right -/

/-- The substitution of a node is in the table, or it is one of those that may have been asked for too early. -/
def Expects (early : Set GenericId) (s : Session) (n : TypeNode) : Prop := s.Knows n ∨ ∃ i ∈ early, n = .generic i

theorem Expects.grows (h : s.Expects early n) (hg : s.Grows T s') : s'.Expects early n := h.imp_left (·.grows hg)

/-- Nobody adds to what finished slots have, and a substitution that is bound to a call and finished has the members of the
instance, unless it may have been asked for too early. -/
structure Exact (env : Env) (early : Set GenericId) (s : Session) : Prop where
  calm : s.cache.Calm
  value : ∀ i f ty call, i ∉ early → s.substitutions.get? i = some ⟨f, ty, some call⟩ →
    s.cache.state? (.generic i) = some .resolved →
    env.arena.Instance s.cache f call ty (s.cache.members (s.cache.node? (.generic i)))

theorem Exact.firm (h : s.Exact env early) (hk : s.cache.state? k = some .resolved) : s.cache.Firm k := h.calm.firm hk

/-- Finished slots keep their members while the slots of `T` are under way. -/
theorem Exact.finished (h : s.Exact env early) (hw : s.cache.WellFormed) (hg : s.cache.Grows T s'.cache)
    (hT : ∀ k ∈ T, s.cache.state? k ≠ some .resolved) (hk : s.cache.state? k = some .resolved) :
    s'.cache.state? k = some .resolved ∧
      s'.cache.members (s'.cache.node? k) = s.cache.members (s.cache.node? k) := by
  obtain ⟨hfirm, -, hmembers⟩ := (h.firm hk).grows hw hg hT
  exact ⟨hfirm.state, hmembers⟩

/-- All substitutions that slots hold or belong to exist, those asked for too early apart, and instances are right if the
session is clean. -/
structure Lawful (env : Env) (early : Set GenericId) (s : Session) : Prop where
  wellFormed : s.cache.WellFormed
  knows : s.cache.Sound fun _ => s.Expects early
  slots : ∀ i, s.cache.slot? (.generic i) ≠ none → s.Expects early (.generic i)
  instances : s.Clean → s.Exact env early

/-- A node that may be merged: its substitution exists, and its union is that of a finished slot. -/
structure Merges (early : Set GenericId) (s : Session) (n : TypeNode) : Prop where
  knows : s.Expects early n
  owner : ∀ u, n = .union u → s.Clean → ∃ o, s.cache.unions.owner? u = some o ∧ s.cache.state? o = some .resolved

theorem Merges.of_flat (hn : s.Expects early n) (hflat : n.isUnion = false) : s.Merges early n := by
  refine ⟨hn, ?_⟩
  rintro u rfl
  cases hflat

theorem Merges.grows (h : s.Merges early n) (hg : s.Grows T s') : s'.Merges early n := by
  refine ⟨h.knows.grows hg, fun u hu hclean => ?_⟩
  obtain ⟨o, ho, hst⟩ := h.owner u hu (hclean.of_grows hg)
  exact ⟨o, hg.cache.owner u o ho, hg.cache.state o _ hst⟩

namespace Lawful

theorem fresh : Session.fresh.Lawful env early := by
  refine ⟨NodeCache.wellFormed_empty, .empty, fun i hi => absurd slot?_fresh hi, fun _ => ⟨fun k u hu => ?_, ?_⟩⟩
  · rw [NodeCache.node?, slot?_fresh] at hu
    cases hu
  · simp [Session.fresh, Substitutions.get?, Substitutions.empty]

theorem congr (h : s.Lawful env early) (hcache : s'.cache = s.cache) (hsubs : s'.substitutions = s.substitutions)
    (hclean : s'.Clean → s.Clean) : s'.Lawful env early := by
  have hknows : s'.Expects early = s.Expects early := by
    funext n
    cases n <;> simp only [Expects, Knows, hsubs]
  refine ⟨hcache ▸ h.wellFormed, by rw [hknows, hcache]; exact h.knows, by rw [hknows, hcache]; exact h.slots, fun hc => ?_⟩
  have hexact := h.instances (hclean hc)
  exact ⟨hcache ▸ hexact.calm, by rw [hcache, hsubs]; exact hexact.value⟩

/-- A member of a union may be merged. -/
theorem merges_of_mem (h : s.Lawful env early) {u : UnionId} (hn : n ∈ s.cache.unions.members u) : s.Merges early n := by
  obtain ⟨owner, ho⟩ := h.wellFormed.owner u (UnionArena.lt_of_mem hn)
  exact .of_flat (h.knows.member u owner ho n hn) (h.wellFormed.flatten_flat (n := .union u) n hn)

/-- What a finished slot has may be merged. -/
theorem merges_of_resolved (h : s.Lawful env early) (hn : s.cache.node? k = some n)
    (hk : s.Clean → s.cache.state? k = some .resolved) : s.Merges early n := by
  refine ⟨?_, fun u hu hclean => ?_⟩
  · have hj := h.knows.node k n hn
    cases n with
    | union u => exact .inl trivial
    | _ => exact hj
  · subst hu
    exact ((h.instances hclean).firm (hk hclean)).owner u hn

theorem withSubstitution (h : s.Lawful env early) (sub : Substitution) : (s.withSubstitution sub).Lawful env early := by
  have hg : s.Grows ∅ (s.withSubstitution sub) := (Evolves.addSubstitution ∅ s sub h.wellFormed).2
  refine ⟨h.wellFormed, ⟨fun k n hn => ?_, fun u k ho n hn => (h.knows.member u k ho n hn).grows hg⟩,
    fun i hi => (h.slots i hi).grows hg, fun hclean => ?_⟩
  · have hj := h.knows.node k n hn
    cases n with
    | union u => exact hj.imp fun owner ho => ⟨ho.1, fun _ hk => hk⟩
    | _ => exact Expects.grows hj hg
  · have hexact := h.instances (hclean.of_grows hg)
    refine ⟨hexact.calm, fun i f ty call hearly hi hst => hexact.value i f ty call hearly ?_ hst⟩
    -- the slot belongs to a substitution that was there before
    have hslot : s.cache.slot? (.generic i) ≠ none := by
      intro hnone
      have hnone' : (s.withSubstitution sub).cache.state? (.generic i) = none := by
        rw [NodeCache.state?]
        exact congrArg (Option.map Slot.state) hnone
      rw [hnone'] at hst
      cases hst
    rcases h.slots i hslot with ⟨sub', hsub'⟩ | ⟨_, hj, ⟨⟩⟩
    · rw [hg.substitution i sub' hsub'] at hi
      rw [hsub', ← hi]
    · exact absurd hj hearly

/-- While the rule of a slot runs, the slot may get a node. -/
theorem setNode (h : s.Lawful env early) (ht : s.cache.state? target = some .inProgress) (hn : s.Merges early n)
    (hholds : s.cache.unions.Holds n) : (s.setNode target (some n)).Lawful env early := by
  have hh : ∀ m, some n = some m → s.cache.unions.Holds m := by
    rintro _ ⟨⟩
    exact hholds
  have hset : s.Evolves {target} (s.setNode target (some n)) := .setNode fun _ => hh
  obtain ⟨hw, hg⟩ := hset h.wellFormed
  have hknows : s.cache.Justified (fun _ => s.Expects early) target n := by
    cases n with
    | union u =>
      obtain ⟨owner, ho⟩ := h.wellFormed.owner u hholds
      exact ⟨owner, ho, fun _ hk => hk⟩
    | _ => exact hn.knows
  have hsound : (s.cache.setNode target (some n)).Sound fun _ => s.Expects early := by
    refine h.knows.setNode ?_
    rintro _ ⟨⟩
    exact hknows
  refine ⟨hw, hsound, fun i hi => ?_, fun hclean => ?_⟩
  · refine h.slots i fun hnone => hi ?_
    have hne : SlotKey.generic i ≠ target := by
      rintro rfl
      rw [NodeCache.state?, hnone] at ht
      cases ht
    rw [slot?_setNode_of_ne hne, hnone]
  · have hexact := h.instances (hclean.of_grows hg)
    have hunder : ∀ k ∈ ({target} : Set SlotKey), s.cache.state? k ≠ some .resolved := by
      rintro _ rfl hk
      rw [ht] at hk
      cases hk
    refine ⟨hexact.calm.setNode h.wellFormed hh ?_, fun i f ty call hearly hi hst => ?_⟩
    · rintro u ⟨⟩
      exact hn.owner u rfl (hclean.of_grows hg)
    · have hne : SlotKey.generic i ≠ target := by
        rintro rfl
        rw [hg.cache.state _ _ ht] at hst
        cases hst
      rw [NodeCache.state?, slot?_setNode_of_ne hne] at hst
      rw [(hexact.finished h.wellFormed hg.cache hunder hst).2]
      exact (hexact.value i f ty call hearly hi hst).mono fun k hk => hexact.finished h.wellFormed hg.cache hunder hk

/-- The rule of a slot starts. -/
theorem start (h : s.Lawful env early) (habs : s.cache.slot? key = none) (hkey : ∀ i, key = .generic i → s.Expects early (.generic i))
    (kind : String) : (s.start key kind).Lawful env early := by
  refine ⟨h.wellFormed.start habs, h.knows.start, fun i hi => ?_, fun hclean => ?_⟩
  · rw [slot?_start] at hi
    split at hi
    · next heq => exact hkey i heq.symm
    · exact h.slots i hi
  · have hexact := h.instances (hclean.of_journal ⟨_, by simp [Session.start, noteStart]; rfl⟩ (Nat.le_refl _))
    have hkeep : ∀ k, s.cache.state? k = some .resolved → (s.cache.start key).state? k = some .resolved ∧
        (s.cache.start key).members ((s.cache.start key).node? k) = s.cache.members (s.cache.node? k) := by
      intro k hk
      obtain ⟨hfirm, hnode⟩ := (hexact.firm hk).start habs
      exact ⟨hfirm.state, by rw [hnode]; rfl⟩
    refine ⟨hexact.calm.start habs, fun i f ty call hearly hi hst => ?_⟩
    have hst' : s.cache.state? (.generic i) = some .resolved := by
      rw [NodeCache.state?, slot?_start] at hst
      split at hst
      · cases hst
      · exact hst
    exact (hkeep _ hst').2 ▸ (hexact.value i f ty call hearly hi hst').mono hkeep

/-- The rule of a slot ends. If it is that of a substitution that is bound to a call, its members have to be right. -/
theorem finish (h : s.Lawful env early) (hst : s.cache.state? key = some .inProgress) (query : Nat)
    (hvalue : (s.finish query key).Clean → ∀ i f ty call, i ∉ early → key = .generic i →
      s.substitutions.get? i = some ⟨f, ty, some call⟩ →
      env.arena.Instance s.cache f call ty (s.cache.members (s.cache.node? (.generic i)))) :
    (s.finish query key).Lawful env early := by
  have hnode : ∀ k, (s.finish query key).cache.node? k = s.cache.node? k := fun k => NodeCache.node?_finish
  refine ⟨h.wellFormed.finish, h.knows.finish, fun i hi => h.slots i fun hnone => hi ?_, fun hclean => ?_⟩
  · rw [slot?_finish, if_neg]
    · exact hnone
    · rintro rfl
      rw [NodeCache.state?, hnone] at hst
      cases hst
  · have hexact := h.instances (hclean.of_journal ⟨_, by simp [Session.finish, noteEnd]; rfl⟩ (Nat.le_refl _))
    have hkeep : ∀ k, s.cache.state? k = some .resolved → (s.cache.finish key).state? k = some .resolved ∧
        (s.cache.finish key).members ((s.cache.finish key).node? k) = s.cache.members (s.cache.node? k) := by
      intro k hk
      exact ⟨(hexact.firm hk).finish.state, by rw [NodeCache.node?_finish]; rfl⟩
    refine ⟨hexact.calm.finish, fun i f ty call hearly hi hst' => ?_⟩
    rw [hnode]
    refine Arena.Instance.mono hkeep ?_
    by_cases hkey : SlotKey.generic i = key
    · exact hvalue hclean i f ty call hearly hkey.symm hi
    · rw [NodeCache.state?, slot?_finish, if_neg hkey] at hst'
      exact hexact.value i f ty call hearly hi hst'

end Lawful

end Session

/-- What was found for type parameters are the members of the arguments that tell what they are. -/
def Session.Infers (env : Env) (f call : DeclId) (bindings : Bindings) (s : Session) : Prop :=
  s.Clean → ∀ p, env.arena.IsTypeParam f p →
    (∀ arg ∈ env.arena.typeArguments f call p, s.cache.state? (.decl arg) = some .resolved) ∧
    bindings.of p = Distinct.concat ((env.arena.typeArguments f call p).map fun arg =>
      s.cache.members (s.cache.node? (.decl arg)))

/-- From `s` to `s'`, the members of the instance of `ty` are merged into `target`. -/
def Session.Adds (env : Env) (target : SlotKey) (f call ty : DeclId) (s s' : Session) : Prop :=
  s'.Clean → ∃ ms, env.arena.Instance s'.cache f call ty ms ∧
    s'.cache.members (s'.cache.node? target) = Distinct.append (s.cache.members (s.cache.node? target)) ms

/-- Substitutions that slots hold exist, the counter agrees with the journal, and instances are right. -/
def Regime.instancing (env : Env) (early : Set GenericId) : Regime env where
  Holds s := s.Lawful env early ∧ s.Nested
  Allows s n := s.Merges early n
  wellFormed h := h.1.wellFormed
  plain hn := .of_flat (.inl (.of_plain hn)) (by revert hn; cases ‹TypeNode› <;> simp [TypeNode.IsPlain, TypeNode.isUnion])
  member h hn := h.1.merges_of_mem hn
  grows hg hn := hn.grows hg
  bind _ h := ⟨h.1.withSubstitution _, h.2.stack, h.2.limit⟩
  new s sub := .of_flat (.inl ⟨sub, Substitutions.get?_push_self s.substitutions sub⟩) rfl

namespace Env

variable {env : Env} {early : Set GenericId} {s s' t : Session} {target key : SlotKey} {fuel : Nat} {f call : DeclId} {u : Unit}
  {i : GenericId}

/-- A slot whose rule runs takes what is allowed. -/
theorem absorbs_instancing (target : SlotKey) : ((Regime.instancing env early).during target).Absorbs target := by
  rintro s n ⟨⟨hl, hn⟩, hst⟩ hallows hholds
  exact ⟨⟨hl.setNode hst hallows hholds, hn.stack, hn.limit⟩, NodeCache.state?_setNode hst⟩

theorem compileSlot_resolved {node : Option TypeNode} (h : (env.compileSlot fuel key).run s = .ok (node, s'))
    (hclean : s'.Clean) : s'.cache.state? key = some .resolved :=
  compileSlot_finished h hclean.cycles

/-- While nothing but `target` is merged into, what is finished stays. -/
theorem keeps_during {T : Set SlotKey} (hs : ((Regime.instancing env early).during target).Holds s) (hg : s.Grows T t)
    (hT : T ⊆ {target}) (hclean : t.Clean) {k : SlotKey} (hk : s.cache.state? k = some .resolved) :
    t.cache.state? k = some .resolved ∧ t.cache.members (t.cache.node? k) = s.cache.members (s.cache.node? k) := by
  refine (hs.1.1.instances (hclean.of_grows hg)).finished hs.1.1.wellFormed hg.cache (fun o ho hres => ?_) hk
  rw [hT ho, hs.2] at hres
  cases hres

/-- The nodes found for a type parameter are merged one after the other. -/
theorem forM_mergeNode_members {ns : List TypeNode} (hs : ((Regime.instancing env early).during target).Holds s)
    (hflat : ∀ n ∈ ns, n.isUnion = false) (h : (ns.forM fun n => Resolve.mergeNode target (some n)).run s = .ok (u, s')) :
    s'.cache.members (s'.cache.node? target) = Distinct.append (s.cache.members (s.cache.node? target)) ns := by
  have hw := hs.1.1.wellFormed
  clear hs
  induction ns generalizing s with
  | nil => cases h; rfl
  | cons n ns ih =>
    obtain ⟨_, t, hm, h⟩ := Resolve.bind_ok h
    rw [Resolve.mergeNode_ok hm] at h
    have hnu := hflat n (by simp)
    have hset : s.Evolves {target} (s.setNode target (some n)) := .setNode_flat hnu
    have hone : (s.setNode target (some n)).cache.members ((s.setNode target (some n)).cache.node? target) =
        Distinct.append (s.cache.members (s.cache.node? target)) [n] := by
      refine (NodeCache.members_setNode hw.distinct).trans ?_
      cases n with
      | union u => cases hnu
      | _ => rfl
    rw [ih (fun m hm => hflat m (by simp [hm])) h (hset hw).1, hone]
    rfl

/-- Loops over alternatives: what each of them adds, they add together. -/
theorem forM_adds {alternatives : List DeclId} {g : DeclId → Resolve Unit} (P : Session → Prop)
    (hP : ∀ t, P t → ((Regime.instancing env early).during target).Holds t)
    (hstep : ∀ x ∈ alternatives, ∀ t t', P t → (g x).run t = .ok ((), t') →
      P t' ∧ t.Grows {target} t' ∧ t.Adds env target f call x t')
    (hs : P s) (h : (alternatives.forM g).run s = .ok (u, s')) :
    s.Grows {target} s' ∧ (s'.Clean → (∀ alt ∈ alternatives, ∃ ms, env.arena.Instance s'.cache f call alt ms) ∧
      ∀ parts : DeclId → List TypeNode, (∀ alt ∈ alternatives, env.arena.Instance s'.cache f call alt (parts alt)) →
        s'.cache.members (s'.cache.node? target) =
          Distinct.append (s.cache.members (s.cache.node? target)) (Distinct.concat (alternatives.map parts))) := by
  induction alternatives generalizing s with
  | nil =>
    cases h
    exact ⟨.refl _ _, fun _ => ⟨by simp, fun _ _ => rfl⟩⟩
  | cons x xs ih =>
    obtain ⟨_, t, hx, h⟩ := Resolve.bind_ok h
    obtain ⟨ht, hg, hadds⟩ := hstep x (by simp) _ _ hs hx
    obtain ⟨hg', hrest⟩ := ih (fun y hy => hstep y (by simp [hy])) ht h
    refine ⟨hg.trans hg', fun hclean => ?_⟩
    obtain ⟨ms, hinst, hmembers⟩ := hadds (hclean.of_grows hg')
    obtain ⟨hall, hparts⟩ := hrest hclean
    -- the instance of the first alternative is still right in the end
    have hinst' := hinst.mono fun k hk => keeps_during (hP t ht) hg' subset_rfl hclean hk
    refine ⟨List.forall_mem_cons.2 ⟨⟨ms, hinst'⟩, hall⟩, fun parts hp => ?_⟩
    rw [hparts parts fun alt halt => hp alt (by simp [halt]), hmembers, hinst'.unique (hp x (by simp)), List.map_cons,
      Distinct.append_concat_cons]

/-- The types that were found stay right while nothing but `target` is merged into. -/
theorem infers_grows {bindings : Bindings} (hs : ((Regime.instancing env early).during target).Holds s)
    (hg : s.Grows {target} t) (h : s.Infers env f call bindings) : t.Infers env f call bindings := by
  intro hclean p hp
  obtain ⟨hresolved, hof⟩ := h (hclean.of_grows hg) p hp
  have hkeep := fun arg harg => keeps_during hs hg subset_rfl hclean (hresolved arg harg)
  refine ⟨fun arg harg => (hkeep arg harg).1, hof.trans ?_⟩
  rw [List.map_congr_left fun arg harg => (hkeep arg harg).2]

section Rule

variable (hc : (Regime.instancing env early).Serves (env.compileSlot fuel))
include hc

/-- Resolving a declaration while the rule of `target` runs: `target` keeps its members. -/
theorem compileSlot_during {d : DeclId} {node : Option TypeNode}
    (hs : ((Regime.instancing env early).during target).Holds s)
    (h : (env.compileSlot fuel (.decl d)).run s = .ok (node, t)) :
    ((Regime.instancing env early).during target).Holds t ∧ (∀ n, node = some n → t.Merges early n) ∧
      Session.Visits (.decl d) s node t ∧
      t.cache.members (t.cache.node? target) = s.cache.members (s.cache.node? target) := by
  have hv := env.compileSlot_visits fuel
  have hvis := hv _ _ _ _ hs.1.1.wellFormed h
  obtain ⟨ht, hnode⟩ := hc.during hv target (.decl d) s node t hs (by simp) h
  refine ⟨ht, hnode, hvis, hvis.grows.cache.members_slot hs.1.1.wellFormed fun hnone => ?_⟩
  have hst := hs.2
  rw [NodeCache.state?, hnone] at hst
  cases hst

/-- The members of the arguments are read when they are finished. -/
theorem mapM_sources_exact {sources : List (List Atom × DeclId)} {entries : List Bindings}
    (hs : ((Regime.instancing env early).during target).Holds s)
    (h : (sources.mapM (m := Resolve) fun (uses, arg) => do
      let node ← env.compileSlot fuel (.decl arg)
      let members := (← get).cache.members node
      return uses.map fun param => (param, members)).run s = .ok (entries, s')) :
    ((Regime.instancing env early).during target).Holds s' ∧ s.Grows ∅ s' ∧
      s'.cache.members (s'.cache.node? target) = s.cache.members (s.cache.node? target) ∧
      (s'.Clean → (∀ source ∈ sources, s'.cache.state? (.decl source.2) = some .resolved) ∧
        entries = sources.map fun source => source.1.map fun param =>
          (param, s'.cache.members (s'.cache.node? (.decl source.2)))) := by
  induction sources generalizing s entries with
  | nil =>
    obtain ⟨rfl, rfl⟩ := Resolve.pure_ok (by simpa using h)
    exact ⟨hs, .refl _ _, rfl, fun _ => ⟨by simp, rfl⟩⟩
  | cons source sources ih =>
    rw [List.mapM_cons] at h
    obtain ⟨entry, t, hx, h⟩ := Resolve.bind_ok h
    obtain ⟨rest, t', hxs, h⟩ := Resolve.bind_ok h
    obtain ⟨rfl, rfl⟩ := Resolve.pure_ok h
    obtain ⟨node, t₁, hd, hx⟩ := Resolve.bind_ok hx
    obtain ⟨_, _, hg, hx⟩ := Resolve.bind_ok hx
    cases hg
    obtain ⟨rfl, rfl⟩ := Resolve.pure_ok hx
    obtain ⟨ht, -, hvis, hmembers⟩ := compileSlot_during hc hs hd
    obtain ⟨hs', hg', hmembers', hexact⟩ := ih ht hxs
    refine ⟨hs', hvis.grows.trans hg', hmembers'.trans hmembers, fun hclean => ?_⟩
    obtain ⟨hresolved, rfl⟩ := hexact hclean
    -- the first argument is finished, so later ones leave its members
    have hst := compileSlot_resolved hd (hclean.of_grows hg')
    obtain ⟨hst', heq⟩ := keeps_during ht hg' (Set.empty_subset _) hclean hst
    refine ⟨List.forall_mem_cons.2 ⟨hst', hresolved⟩, ?_⟩
    rw [List.map_cons, heq, hvis.node]

/-- What is found for a type parameter are the members of the arguments that tell what it is. -/
theorem inferBindings_exact {bindings : Bindings} (hs : ((Regime.instancing env early).during target).Holds s)
    (h : (inferBindings env (env.compileSlot fuel) f call).run s = .ok (bindings, s')) :
    ((Regime.instancing env early).during target).Holds s' ∧ s.Grows ∅ s' ∧
      s'.cache.members (s'.cache.node? target) = s.cache.members (s.cache.node? target) ∧
      s'.Infers env f call bindings := by
  obtain ⟨entries, t, hm, h⟩ := Resolve.bind_ok h
  obtain ⟨rfl, rfl⟩ := Resolve.pure_ok h
  obtain ⟨hs', hg, hmembers, hexact⟩ := mapM_sources_exact hc hs hm
  refine ⟨hs', hg, hmembers, fun hclean p hp => ?_⟩
  obtain ⟨hresolved, rfl⟩ := hexact hclean
  rw [← inferenceSources_filter call hp]
  refine ⟨fun arg harg => ?_, ?_⟩
  · obtain ⟨source, hsource, rfl⟩ := List.mem_map.1 harg
    exact hresolved source (List.mem_of_mem_filter hsource)
  · exact Bindings.of_sources (fun arg => s'.cache.members (s'.cache.node? (.decl arg))) _ p

theorem instantiate_adds {bindings : Bindings} {depth : Nat} {ty : DeclId}
    (hflat : ∀ entry ∈ bindings, ∀ n ∈ entry.2, n.isUnion = false)
    (hallows : ∀ entry ∈ bindings, ∀ n ∈ entry.2, s.Merges early n) (hinfers : s.Infers env f call bindings)
    (hs : ((Regime.instancing env early).during target).Holds s)
    (h : (instantiate env (env.compileSlot fuel) target (Signature.of? env.arena f) bindings depth ty).run s = .ok (u, s')) :
    s.Adds env target f call ty s' := by
  have hv := env.compileSlot_visits fuel
  induction depth generalizing ty s s' with
  | zero => cases h
  | succ depth ih =>
    intro hclean
    have hg := (instantiate_evolves hv hflat h hs.1.1.wellFormed).2
    rw [instantiate] at h
    split at h
    · next hk =>
      rw [(Resolve.pure_ok h).2]
      exact ⟨[], .missing hk, rfl⟩
    · next kind hk =>
      split at h
      · next p hparam =>
        -- a type parameter stands for the members of arguments
        obtain ⟨hp, htype⟩ := (Signature.bind_paramUse?_eq_some hk).1 hparam
        obtain ⟨hresolved, hof⟩ := infers_grows hs hg hinfers hclean p htype
        refine ⟨_, .param hp htype hresolved, ?_⟩
        rw [← hof]
        refine forM_mergeNode_members hs (fun n hn => ?_) h
        obtain ⟨entry, hentry, hn⟩ := Bindings.exists_of_mem_of hn
        exact hflat entry hentry n hn
      · next hparam =>
        split at h
        · next alternatives =>
          -- a union stands for what its alternatives stand for
          have hstep : ∀ x ∈ alternatives, ∀ t t', (((Regime.instancing env early).during target).Holds t ∧ s.Grows {target} t) →
              (instantiate env (env.compileSlot fuel) target (Signature.of? env.arena f) bindings depth x).run t = .ok ((), t') →
              (((Regime.instancing env early).during target).Holds t' ∧ s.Grows {target} t') ∧ t.Grows {target} t' ∧
                t.Adds env target f call x t' := by
            rintro x - t t' ⟨ht, hgt⟩ hr
            have hallows' : ∀ entry ∈ bindings, ∀ n ∈ entry.2, t.Merges early n :=
              fun entry hentry n hn => (hallows entry hentry n hn).grows hgt
            have hg' := (instantiate_evolves hv hflat hr ht.1.1.wellFormed).2
            have ht' := Regime.instantiate_upholds (absorbs_instancing target) hv (hc.during hv target) hflat hallows' ht hr
            exact ⟨⟨ht', hgt.trans hg'⟩, hg', ih hallows' (infers_grows hs hgt hinfers) ht hr⟩
          obtain ⟨hexists, hparts⟩ := (forM_adds _ (fun t ht => ht.1) hstep ⟨hs, .refl _ _⟩ h).2 hclean
          choose! parts hinst using hexists
          exact ⟨_, .union hk hinst, hparts parts hinst⟩
        · next hunion =>
          -- any other type expression stands for what it is by itself
          obtain ⟨node, t, hd, h⟩ := Resolve.bind_ok h
          rw [Resolve.mergeNode_ok h] at hclean ⊢
          obtain ⟨ht, -, hvis, hmembers⟩ := compileSlot_during hc hs hd
          have hset : t.Evolves {target} (t.setNode target node) := .setNode fun _ => hvis.holds
          have hg' := (hset hvis.wellFormed).2
          have hst := compileSlot_resolved hd (hclean.of_grows hg')
          refine ⟨t.cache.members node, ?_, ?_⟩
          · have hnode : t.cache.members node = t.cache.members (t.cache.node? (.decl ty)) := by rw [hvis.node]
            rw [hnode]
            refine Arena.Instance.mono (fun k hk => keeps_during ht hg' subset_rfl hclean hk) ?_
            exact .other hk hunion (Signature.bind_paramUse?_eq_none hk hparam) hst
          · rw [← hmembers]
            exact NodeCache.members_setNode hvis.wellFormed.distinct

/-- The rule of a substitution that exists, from start to finish. -/
theorem runSubstitution_instancing {kind : String} (hs : s.Lawful env early ∧ s.Nested)
    (habs : s.cache.slot? (.generic i) = none) (hknown : s.Expects early (.generic i))
    (h : (runSubstitution env (env.compileSlot fuel) (.generic i) i).run (s.start (.generic i) kind) = .ok (u, t)) :
    (t.finish (s.start (.generic i) kind).lookups (.generic i)).Lawful env early := by
  have hv := env.compileSlot_visits fuel
  have hstart : (s.start (.generic i) kind).Lawful env early := hs.1.start habs (by rintro _ ⟨⟩; exact hknown) kind
  have hst : (s.start (.generic i) kind).cache.state? (.generic i) = some .inProgress := by
    rw [NodeCache.state?, Session.slot?_start, if_pos rfl]
    rfl
  have hnone : (s.start (.generic i) kind).cache.members ((s.start (.generic i) kind).cache.node? (.generic i)) = [] := by
    rw [NodeCache.node?, Session.slot?_start, if_pos rfl]
    rfl
  -- nothing has to be shown of a substitution that may have been asked for too early
  rcases runSubstitution_cases h with ⟨rfl, hrefused⟩ | ⟨sub, depth, bindings, t₁, t', left, hsub, he, hb, hi, -, rfl⟩
  · refine hstart.finish hst _ fun hclean j _ _ _ hearly hj _ => ?_
    cases hj
    rcases hrefused with hmissing | hrefused
    · rcases hknown with ⟨sub, hsub⟩ | ⟨_, hi, ⟨⟩⟩
      · exact absurd (hsub.symm.trans hmissing) (by simp)
      · exact absurd hi hearly
    · exact absurd hclean.shallow (hs.2.not_shallow_of_refused hrefused)
  · have hentered : ((Regime.instancing env early).during (.generic i)).Holds { s.start (.generic i) kind with depth } :=
      ⟨⟨hstart.congr rfl rfl fun hc => ⟨hc.cycles, hc.shallow⟩, hs.2.enter rfl kind he⟩, hst⟩
    have hwithout : ∀ {t : Session}, ((Regime.instancing env early).during (.generic i)).Holds t →
        Session.Lawful env early { t with depth := left } :=
      fun ht => ht.1.1.congr rfl rfl fun hc => ⟨hc.cycles, hc.shallow⟩
    rcases hcall : sub.call with _ | call <;> simp only [hcall] at hb
    · -- a template is bound to no call
      obtain ⟨rfl, rfl⟩ := Resolve.pure_ok hb
      have ht' := Regime.instantiate_upholds (absorbs_instancing _) hv (hc.during hv _) (by simp) (by simp) hentered hi
      refine (hwithout ht').finish ht'.2 _ fun hclean j f ty call _ hj hget => ?_
      cases hj
      have hg := (instantiate_evolves hv (by simp) hi hentered.1.1.wellFormed).2
      have hsub' : t'.substitutions.get? i = some sub := hg.substitution i sub hsub
      rw [show t'.substitutions.get? i = some ⟨f, ty, some call⟩ from hget] at hsub'
      cases hsub'
      cases hcall
    · obtain ⟨ht₁, hg₁, hmembers, hinfers⟩ := inferBindings_exact hc hentered hb
      have hflat := (inferBindings_evolves hv hentered.1.1.wellFormed hb).2
      have hallows := (Regime.inferBindings_upholds hv (hc.during hv _) hentered hb).2
      have ht' := Regime.instantiate_upholds (absorbs_instancing _) hv (hc.during hv _) hflat hallows ht₁ hi
      have hg := (instantiate_evolves hv hflat hi ht₁.1.1.wellFormed).2
      refine (hwithout ht').finish ht'.2 _ fun hclean j f ty call' _ hj hget => ?_
      cases hj
      have hsub' : t'.substitutions.get? i = some sub := hg.substitution i sub (hg₁.substitution i sub hsub)
      rw [show t'.substitutions.get? i = some ⟨f, ty, some call'⟩ from hget] at hsub'
      cases hsub'
      cases hcall
      have hclean' : t'.Clean := hclean.of_journal ⟨_, by simp [Session.finish, Session.noteEnd]; rfl⟩ (Nat.le_refl _)
      obtain ⟨ms, hinst, hms⟩ := instantiate_adds hc hflat hallows hinfers ht₁ hi hclean'
      rw [hmembers, hnone, Distinct.nil_append (hinst.nodup ht'.1.1.wellFormed)] at hms
      rw [hms]
      exact hinst

end Rule

theorem compileSlot_instancing (env : Env) (early : Set GenericId) (fuel : Nat) : (Regime.instancing env early).Serves (env.compileSlot fuel) := by
  refine Regime.compileSlot_serves (fun s key slot hs hslot => ?_) (fun fuel key s t hc hs hkey habs hr => ?_) fuel
  · have hcache := (Session.cache_hit s key (env.slotKind key) slot.state).1
    have hlawful : (s.hit key (env.slotKind key) slot.state).Lawful env early :=
      hs.1.congr hcache (by cases slot.state <;> rfl) fun hc => hc.of_grows (.hit ∅ _ _ _)
    obtain ⟨es, hb⟩ := Session.Books.hit s key (env.slotKind key) slot.state
    refine ⟨⟨hlawful, hs.2.of_books hb (by cases slot.state <;> rfl)⟩, fun n hn => ?_⟩
    have hrun : (env.compileSlot 1 key).run s = .ok (slot.node, s.hit key (env.slotKind key) slot.state) :=
      compileSlot_of_slot hslot
    refine hlawful.merges_of_resolved (k := key) ?_ fun hc => compileSlot_resolved hrun hc
    rw [hcache, NodeCache.node?_of_slot? hslot, hn]
  · have hv := env.compileSlot_visits fuel
    have hrun := compileSlot_of_rule habs hr
    obtain ⟨es, hb⟩ := env.compileSlot_books (fuel + 1) key hrun
    have hvis := env.compileSlot_visits (fuel + 1) _ _ _ _ hs.1.wellFormed hrun
    have hlawful : (t.finish (s.start key (env.slotKind key)).lookups key).Lawful env early := by
      have hsteps : ∀ {steps : List Step}, key.isGeneric = false → (∀ st ∈ steps, st ∈ env.rule key) →
          (steps.forM (runStep env (env.compileSlot fuel) fuel key)).run (s.start key (env.slotKind key)) = .ok ((), t) →
          (t.finish (s.start key (env.slotKind key)).lookups key).Lawful env early := by
        intro steps hne hmem hr
        have hstart : ((Regime.instancing env early).during key).Holds (s.start key (env.slotKind key)) := by
          refine ⟨⟨hs.1.start habs (fun i hi => ?_) _, hs.2.start hne _⟩, ?_⟩
          · rw [hi] at hne
            cases hne
          · rw [NodeCache.state?, Session.slot?_start, if_pos rfl]
            rfl
        have ht := Regime.steps_uphold (absorbs_instancing key) hv (hc.during hv key) hmem hstart hr
        refine ht.1.1.finish ht.2 _ fun _ i _ _ _ _ hi _ => ?_
        rw [hi] at hne
        cases hne
      cases key with
      | decl d => exact hsteps rfl (fun _ hst => show _ ∈ env.rule (.decl d) from hst) hr
      | ret f index => exact hsteps rfl (fun _ hst => show _ ∈ env.rule (.ret f index) from hst) hr
      | generic i => exact runSubstitution_instancing hc hs habs (hkey i rfl).knows hr
    refine ⟨⟨hlawful, hs.2.of_books hb hvis.grows.depth⟩, fun n hn => ?_⟩
    exact hlawful.merges_of_resolved (hvis.node.trans hn) fun hc => compileSlot_resolved hrun hc

end Env

/-- The substitutions that a query names though they do not exist. -/
def Query.premature (s : Session) (q : Query) : Set GenericId :=
  {i | (q = .generic i ∨ ∃ name, q = .search (.generic i) name) ∧ s.substitutions.get? i = none}

namespace Session

variable {env : Env} {s s' : Session} {early early' : Set GenericId} {i : GenericId} {f ty call : DeclId} {node : Option TypeNode}

/-- The sessions that inquiries and clearings reach, each with the substitutions that were asked for, since the last clearing,
before they existed. -/
inductive Asked (env : Env) : Session → Set GenericId → Prop
  | fresh : Asked env .fresh ∅
  | ask {s s' : Session} {early : Set GenericId} {q : Query} {a : Answer} : Asked env s early → q.isInquiry = true →
      s.ask env q = .ok (a, s') → Asked env s' (early ∪ q.premature s)
  | clear {s s' : Session} {early : Set GenericId} {a : Answer} : Asked env s early → s.ask env .clear = .ok (a, s') →
      Asked env s' ∅

theorem clean_fresh : fresh.Clean :=
  ⟨rfl, fun before _ _ _ _ _ h => by simp [Session.fresh] at h⟩

theorem nested_fresh : fresh.Nested := ⟨⟨[], rfl, rfl⟩, rfl⟩

theorem Lawful.mono (h : s.Lawful env early) (hle : early ⊆ early') : s.Lawful env early' := by
  have hexpects : ∀ n, s.Expects early n → s.Expects early' n :=
    fun _ hn => hn.imp_right fun ⟨i, hi, heq⟩ => ⟨i, hle hi, heq⟩
  refine ⟨h.wellFormed, ⟨fun k n hn => ?_, fun u k ho n hn => hexpects n (h.knows.member u k ho n hn)⟩,
    fun i hi => hexpects _ (h.slots i hi), fun hclean => ⟨(h.instances hclean).calm, fun i f ty call hi => ?_⟩⟩
  · have hj := h.knows.node k n hn
    cases n with
    | union u => exact hj.imp fun owner ho => ⟨ho.1, fun _ hk => hk⟩
    | _ => exact hexpects _ hj
  · exact (h.instances hclean).value i f ty call fun hin => hi (hle hin)

theorem Asked.lawful (h : Asked env s early) : s.Lawful env early ∧ s.Nested ∧ s.Idle := by
  induction h with
  | fresh => exact ⟨.fresh, nested_fresh, idle_fresh⟩
  | @ask s s' early q a _ hq ha ih =>
    have hs : (Regime.instancing env (early ∪ q.premature s)).Holds s := ⟨ih.1.mono Set.subset_union_left, ih.2.1⟩
    have hs' := Regime.ask_upholds (env.compileSlot_instancing _) hq (fun i hi => ?_) hs ha
    · exact ⟨hs'.1, hs'.2, (ask_evolves hq ha).idle ih.2.2⟩
    · refine .of_flat ?_ rfl
      cases hget : s.substitutions.get? i with
      | none => exact .inr ⟨i, .inr ⟨hi, hget⟩, rfl⟩
      | some sub => exact .inl ⟨sub, hget⟩
  | clear _ ha ih =>
    cases ha
    obtain ⟨stack, hsettle, hdepth⟩ := ih.2.1.stack
    refine ⟨Lawful.fresh.congr rfl rfl fun _ => clean_fresh, ⟨⟨stack, hsettle, hdepth.trans ih.2.2.depth⟩, ih.2.1.limit⟩,
      NodeCache.wellFormed_empty, idle_fresh.state, rfl⟩

/-- No more instantiations can be inside one another than were ever started. -/
theorem shallow_of_opened (h : Event.depth (Event.opened s.journal.toList) ≤ Limits.maxGenericDepth.toNat) : s.Shallow := by
  intro before query i kind after stack heq _ hsettle
  have hperm := (Event.closed_perm_of_settle hsettle).countP_eq fun lookup => lookup.2.isGeneric
  rw [List.append_nil, List.countP_append] at hperm
  have hone : (Event.opened [.started query (.generic i) kind]).countP (fun lookup => lookup.2.isGeneric) = 1 := rfl
  rw [heq, ← List.singleton_append, Event.opened_append, Event.opened_append, Event.depth, List.countP_append,
    List.countP_append, hone] at h
  rw [Event.depth]
  omega

/-- If no look-up met a slot under way and no instantiation was cut off, a substitution that is bound to a call and is resolved
at all is resolved to the instance of its type expression, unless it was asked for before it existed. -/
theorem compileGeneric_instance (hs : Asked env s early) (hi : s.substitutions.get? i = some ⟨f, ty, some call⟩)
    (hearly : i ∉ early) (h : s.compileGeneric env i = .ok (node, s')) (hcycles : s'.stats.cycleHits = 0)
    (hshallow : s'.Shallow) : env.arena.Instance s'.cache f call ty (s'.cache.members node) := by
  obtain ⟨hlawful, hnested, -⟩ := hs.lawful
  have hclean : s'.Clean := ⟨hcycles, hshallow⟩
  have hvis := compile_visits hlawful.wellFormed h
  have hs' : (Regime.instancing env early).Holds s' := by
    refine (env.compileSlot_instancing early _ _ _ _ _ ⟨hlawful, hnested⟩ ?_ h).1
    rintro _ ⟨⟩
    exact .of_flat (.inl ⟨_, hi⟩) rfl
  rw [← hvis.node]
  exact (hs'.1.instances hclean).value i f ty call hearly (hvis.grows.substitution i _ hi) (Env.compileSlot_resolved h hclean)

end Session

/-- `---@generic T; ---@param a T; ---@param b T|"s"; ---@return T|("none"|T); function(a, b) end`, called with `1` and `"x"`. -/
def Program.sampleFallback : Program :=
  (empty.build [.function ["a", "b"], .docGeneric ⟨2⟩ ["T"], .tyName "T", .docParam ⟨2⟩ "a" ⟨4⟩, .tyName "T", .tyString "s",
    .tyUnion [⟨6⟩, ⟨7⟩], .docParam ⟨2⟩ "b" ⟨8⟩, .tyName "T", .tyString "none", .tyName "T", .tyUnion [⟨11⟩, ⟨12⟩],
    .tyUnion [⟨10⟩, ⟨13⟩], .docReturn ⟨2⟩ 1 ⟨14⟩, .integer 1, .string "x", .call ⟨2⟩ [⟨16⟩, ⟨17⟩]]).2

namespace Session

/-- Both arguments tell what the type parameter is, and the result type has it twice, once in a union inside the union. -/
theorem compileGeneric_instance_fallback : ∃ a s node s', fresh.ask (.of .sampleFallback {}) (.decl ⟨18⟩) = .ok (a, s) ∧
    s.compileGeneric (.of .sampleFallback {}) ⟨1⟩ = .ok (node, s') ∧ s'.stats.cycleHits = 0 ∧ s'.Shallow ∧
    s.substitutions.get? ⟨1⟩ = some ⟨⟨2⟩, ⟨14⟩, some ⟨18⟩⟩ ∧
    (Env.of .sampleFallback {}).arena.Instance s'.cache ⟨2⟩ ⟨18⟩ ⟨14⟩ [.leaf ⟨16⟩, .leaf ⟨17⟩, .leaf ⟨11⟩] := by
  obtain ⟨⟨a, s⟩, hask, hrun⟩ := Except.exists_ok (x := fresh.ask (.of .sampleFallback {}) (.decl ⟨18⟩))
    (f := fun r => (r.2.substitutions.get? ⟨1⟩, (r.2.compileGeneric (.of .sampleFallback {}) ⟨1⟩).toOption.map fun q =>
      (q.2.cache.members q.1, q.2.stats.cycleHits, Event.depth (Event.opened q.2.journal.toList))))
    (b := (some ⟨⟨2⟩, ⟨14⟩, some ⟨18⟩⟩, some ([.leaf ⟨16⟩, .leaf ⟨17⟩, .leaf ⟨11⟩], 0, 1))) (by decide +kernel)
  simp only [Prod.mk.injEq] at hrun
  obtain ⟨hsub, hrun⟩ := hrun
  obtain ⟨⟨node, s'⟩, hg, hresult⟩ := Except.exists_ok hrun
  simp only [Prod.mk.injEq] at hresult
  obtain ⟨hmembers, hcycles, hopened⟩ := hresult
  have hs : Asked (.of .sampleFallback {}) s (∅ ∪ Query.premature .fresh (.decl ⟨18⟩)) := .ask .fresh rfl hask
  have hshallow : s'.Shallow := shallow_of_opened (by rw [hopened]; decide)
  have hinst := compileGeneric_instance hs hsub (by simp [Query.premature]) hg hcycles hshallow
  rw [hmembers] at hinst
  exact ⟨a, s, node, s', hask, hg, hcycles, hshallow, hsub, hinst⟩

theorem instance_sampleIdentity {c : NodeCache} (hst : c.state? (.decl ⟨7⟩) = some .resolved)
    (hmembers : c.members (c.node? (.decl ⟨7⟩)) = [.leaf ⟨7⟩]) :
    (Env.of .sampleIdentity {}).arena.Instance c ⟨1⟩ ⟨9⟩ ⟨5⟩ [.leaf ⟨7⟩] := by
  obtain ⟨p, hp, hparam, hargs⟩ : ∃ p, (Env.of .sampleIdentity {}).arena.Names ⟨5⟩ p ∧
      (Env.of .sampleIdentity {}).arena.kind? ⟨2⟩ = some (.docGeneric [p]) ∧
      (Env.of .sampleIdentity {}).arena.typeArguments ⟨1⟩ ⟨9⟩ p = [⟨7⟩] := ⟨⟨2⟩, by decide +kernel⟩
  have hinst : (Env.of .sampleIdentity {}).arena.Instance c ⟨1⟩ ⟨9⟩ ⟨5⟩ _ :=
    .param hp ⟨⟨2⟩, by decide +kernel, [p], hparam, List.mem_singleton.2 rfl⟩ (by simpa [hargs] using hst)
  simpa [hargs, hmembers, Distinct.concat, Distinct.append, Distinct.add] using hinst

/-- After these queries about `Program.sampleIdentity`, the substitution of the call resolves to something other than the instance
of the result type. -/
def MissesInstance (qs : List Query) : Prop :=
  ∃ answers s node s', fresh.askAll (.of .sampleIdentity {}) qs = .ok (answers, s) ∧
    s.substitutions.get? ⟨1⟩ = some ⟨⟨1⟩, ⟨5⟩, some ⟨9⟩⟩ ∧ s.compileGeneric (.of .sampleIdentity {}) ⟨1⟩ = .ok (node, s') ∧
    s'.stats.cycleHits = 0 ∧ s'.Shallow ∧ (Env.of .sampleIdentity {}).arena.Instance s'.cache ⟨1⟩ ⟨9⟩ ⟨5⟩ [.leaf ⟨7⟩] ∧
    s'.cache.members node ≠ [.leaf ⟨7⟩]

theorem missesInstance_of {qs : List Query}
    (h : (fresh.askAll (.of .sampleIdentity {}) qs).toOption.map (fun r => (r.2.substitutions.get? ⟨1⟩,
      (r.2.compileGeneric (.of .sampleIdentity {}) ⟨1⟩).toOption.map fun q => decide (q.2.stats.cycleHits = 0 ∧
        Event.depth (Event.opened q.2.journal.toList) ≤ Limits.maxGenericDepth.toNat ∧
        q.2.cache.state? (.decl ⟨7⟩) = some .resolved ∧ q.2.cache.members (q.2.cache.node? (.decl ⟨7⟩)) = [.leaf ⟨7⟩] ∧
        q.2.cache.members q.1 ≠ [.leaf ⟨7⟩]))) = some (some ⟨⟨1⟩, ⟨5⟩, some ⟨9⟩⟩, some true)) : MissesInstance qs := by
  obtain ⟨⟨answers, s⟩, hask, h⟩ := Except.exists_ok h
  simp only [Prod.mk.injEq] at h
  obtain ⟨hsub, h⟩ := h
  obtain ⟨⟨node, s'⟩, hg, h⟩ := Except.exists_ok h
  obtain ⟨hcycles, hopened, hst, hmembers, hne⟩ := of_decide_eq_true h
  exact ⟨answers, s, node, s', hask, hsub, hg, hcycles, shallow_of_opened hopened, instance_sampleIdentity hst hmembers, hne⟩

/-- If the substitution is asked for before it exists, it stays without members. A node that is merged into its slot from outside
is all that it has. -/
theorem compileGeneric_misses_instance : MissesInstance [.generic ⟨1⟩, .decl ⟨9⟩, .decl ⟨7⟩] ∧
    MissesInstance [.decl ⟨9⟩, .setNode (.generic ⟨1⟩) (some (.leaf ⟨8⟩)), .decl ⟨7⟩] :=
  ⟨missesInstance_of (by decide +kernel), missesInstance_of (by decide +kernel)⟩

end Session

end LuaInfer
