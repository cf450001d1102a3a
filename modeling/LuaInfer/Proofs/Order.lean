import LuaInfer.Proofs.Sound
/-!
# The order of queries does not matter without cycles

Without type parameters, the members of a slot can be computed from the program alone: fold over the
steps of its rule and take the members of other slots as they are when finished (`Env.evaluate`). A
session that met no slot under way has computed just that (`Session.Canonical`), since every slot it
read was finished, and what is finished does not change. Two sessions then agree wherever both have an
answer, though they have made and shared their unions in different ways.

`Session.askAll_members_eq` states this for any two lists of inquiries.
-/

namespace LuaInfer

/-- The members of slots, as far as they are known. -/
abbrev Table := SlotKey → Except Fault (List TypeNode)

/-- `G` knows what `F` knows. -/
def Table.Extends (F G : Table) : Prop := ∀ key ms, F key = .ok ms → G key = .ok ms

namespace Env

variable {env : Env} {F G : Table}

/-! ## The members of a slot, without a session -/

/-- Adds the members of a slot. -/
def absorb (F : Table) (ms : List TypeNode) (key : SlotKey) : Except Fault (List TypeNode) := do
  return Distinct.append ms (← F key)

/-- Adds what a step of a rule brings. -/
def evaluateStep (env : Env) (F : Table) (ms : List TypeNode) : Step → Except Fault (List TypeNode)
  | .own n => return Distinct.append ms [n]
  | .merge d => absorb F ms (.decl d)
  | .read base name => do
    let found ← env.searchPlain (← F (.decl base)) name
    (found.map .decl).foldlM (absorb F) ms
  | .delegate metatable name => do
    (← F (.decl metatable)).foldlM (fun ms n => do
      let found ← env.searchPlain [n] name
      (found.map .decl).foldlM (absorb F) ms) ms
  | .result callee index _ => do
    (env.resultSlots index (← F (.decl callee))).foldlM (absorb F) ms
  | .template _ => return ms

/-- The members of slots that rest on at most `n` layers of others. -/
def evaluate (env : Env) : Nat → Table
  | 0, _ => throw .outOfFuel
  | n + 1, key => (env.rule key).foldlM (env.evaluateStep (env.evaluate n)) []

theorem absorb_of {key : SlotKey} {ms vs : List TypeNode} (h : F key = .ok vs) :
    absorb F ms key = .ok (Distinct.append ms vs) := by
  rw [absorb, h]
  rfl

theorem absorb_mono (h : F.Extends G) (ms : List TypeNode) (key : SlotKey) (ms' : List TypeNode)
    (ha : absorb F ms key = .ok ms') : absorb G ms key = .ok ms' := by
  obtain ⟨vs, hvs, hr⟩ := Except.bind_ok ha
  cases hr
  exact absorb_of (h key vs hvs)

theorem evaluateStep_mono (h : F.Extends G) (ms : List TypeNode) (st : Step) (ms' : List TypeNode)
    (hs : env.evaluateStep F ms st = .ok ms') : env.evaluateStep G ms st = .ok ms' := by
  cases st with
  | own n => exact hs
  | merge d => exact absorb_mono h _ _ _ hs
  | read base name =>
    obtain ⟨vs, hvs, hs⟩ := Except.bind_ok hs
    obtain ⟨found, hf, hs⟩ := Except.bind_ok hs
    rw [evaluateStep, h _ _ hvs]
    change (env.searchPlain vs name >>= _) = _
    rw [hf]
    exact Except.foldlM_mono (absorb_mono h) hs
  | delegate metatable name =>
    obtain ⟨vs, hvs, hs⟩ := Except.bind_ok hs
    rw [evaluateStep, h _ _ hvs]
    refine Except.foldlM_mono (fun ms n ms' hn => ?_) hs
    obtain ⟨found, hf, hn⟩ := Except.bind_ok hn
    rw [hf]
    exact Except.foldlM_mono (absorb_mono h) hn
  | result callee index call =>
    obtain ⟨vs, hvs, hs⟩ := Except.bind_ok hs
    rw [evaluateStep, h _ _ hvs]
    exact Except.foldlM_mono (absorb_mono h) hs
  | template sub => exact hs

theorem evaluate_succ (n : Nat) : (env.evaluate n).Extends (env.evaluate (n + 1)) := by
  induction n with
  | zero => intro key ms h; cases h
  | succ n ih => exact fun key ms h => Except.foldlM_mono (evaluateStep_mono ih) h

theorem evaluate_mono {m n : Nat} (h : m ≤ n) : (env.evaluate m).Extends (env.evaluate n) := by
  induction h with
  | refl => exact fun _ _ h => h
  | step _ ih => exact fun key ms h => evaluate_succ _ key ms (ih key ms h)

/-- At whatever depth a slot is evaluated, it has the same members. -/
theorem evaluate_unique {m n : Nat} {key : SlotKey} {ms ms' : List TypeNode} (h : env.evaluate m key = .ok ms)
    (h' : env.evaluate n key = .ok ms') : ms = ms' := by
  have hmax := evaluate_mono (Nat.le_max_left m n) key ms h
  rw [evaluate_mono (Nat.le_max_right m n) key ms' h'] at hmax
  cases hmax
  rfl

end Env

/-! ## Sessions that have met no cycle -/

/-- The table has the members of all slots that are finished. -/
def Table.Knows (F : Table) (s : Session) : Prop :=
  ∀ key, s.cache.state? key = some .resolved → F key = .ok (s.cache.members (s.cache.node? key))

/-- Finished slots have what the program gives them, and nobody adds to their unions any more: a slot
holds a union of its own or one of a finished slot. -/
structure Session.Canonical (env : Env) (s : Session) : Prop where
  sound : s.Sound fun _ n => n.IsPlain
  owner : ∀ key u, s.cache.node? key = some (.union u) →
    ∃ o, s.cache.unions.owner? u = some o ∧ (o = key ∨ s.cache.state? o = some .resolved)
  value : ∃ n, Table.Knows (env.evaluate n) s

/-- Resolving a slot keeps a session canonical and finishes the slot, unless a cycle is met. -/
def Compile.Canonical (env : Env) (compile : Compile) : Prop :=
  ∀ key s node s', s.Canonical env → (compile key).run s = .ok (node, s') → s'.stats.cycleHits = 0 →
    s'.Canonical env ∧ s'.cache.state? key = some .resolved

namespace Session.Canonical

variable {env : Env} {s s' : Session} {key target : SlotKey}

theorem fresh : Session.fresh.Canonical env := by
  refine ⟨sound_fresh, fun key u hu => ?_, 0, fun key hk => ?_⟩
  · rw [NodeCache.node?, slot?_fresh] at hu
    cases hu
  · rw [NodeCache.state?, slot?_fresh] at hk
    cases hk

/-- While the rule of `target` runs, the finished slots stay as they are. -/
theorem finished (h : s.Canonical env) (ht : s.cache.state? target = some .inProgress) (hg : s.Grows {target} s')
    (hk : s.cache.state? key = some .resolved) :
    s'.cache.state? key = some .resolved ∧ s'.cache.node? key = s.cache.node? key ∧
      s'.cache.members (s.cache.node? key) = s.cache.members (s.cache.node? key) := by
  have hne : ∀ o, s.cache.state? o = some .resolved → o ≠ target := by
    rintro o ho rfl
    rw [ht] at ho
    cases ho
  obtain ⟨node, hslot⟩ := NodeCache.state?_eq_some.1 hk
  refine ⟨hg.cache.state key _ hk, ?_, ?_⟩
  · rw [NodeCache.node?_of_slot? (hg.cache.slot key (hne key hk) _ hslot), NodeCache.node?_of_slot? hslot]
  · refine hg.cache.members_eq (fun n hn => h.sound.wellFormed.known key n hn) fun u hu k htarget hown => ?_
    -- the union is of a finished slot, and `target` is not finished
    obtain ⟨o, ho, hres⟩ := h.owner key u hu
    obtain rfl : o = k := Option.some.inj (ho.symm.trans hown)
    refine hne o ?_ htarget
    rcases hres with rfl | hres
    · exact hk
    · exact hres

theorem knows {F : Table} (h : s.Canonical env) (ht : s.cache.state? target = some .inProgress)
    (hg : s.Grows {target} s') (hF : F.Knows s') : F.Knows s := by
  intro key hk
  obtain ⟨hst, hnode, hmembers⟩ := h.finished ht hg hk
  rw [hF key hst, hnode, hmembers]

/-- A slot under way may get a node whose union, if it is one, is that of a finished slot. -/
theorem setNode {node : Option TypeNode} (h : s.Canonical env) (ht : s.cache.state? target = some .inProgress)
    (hsound : (s.setNode target node).Sound fun _ n => n.IsPlain)
    (hh : ∀ n, node = some n → s.cache.unions.Holds n)
    (hnode : ∀ u, node = some (.union u) → ∃ o, s.cache.unions.owner? u = some o ∧ s.cache.state? o = some .resolved) :
    (s.setNode target node).Canonical env := by
  have hg : s.Grows {target} (s.setNode target node) := (Session.Evolves.setNode (fun _ => hh) h.sound.wellFormed).2
  refine ⟨hsound, NodeCache.Calm.setNode h.owner h.sound.wellFormed hh hnode, ?_⟩
  · obtain ⟨n, hn⟩ := h.value
    refine ⟨n, fun k hk => ?_⟩
    have hne : k ≠ target := by
      rintro rfl
      rw [hg.cache.state k _ ht] at hk
      cases hk
    have hk' : s.cache.state? k = some .resolved := by rwa [NodeCache.state?, slot?_setNode_of_ne hne] at hk
    obtain ⟨-, hnode', hmembers⟩ := h.finished ht hg hk'
    rw [hnode', hmembers]
    exact hn k hk'

end Session.Canonical

/-! ## Rules under way -/

/-- The rule of `target` is under way, and its slot has the members `ms` so far. -/
structure Session.Filling (env : Env) (target : SlotKey) (ms : List TypeNode) (s : Session) : Prop where
  canonical : s.Canonical env
  state : s.cache.state? target = some .inProgress
  members : s.cache.members (s.cache.node? target) = ms

/-- From `s` to `s'`, the members of `target` change as `e` says, unless a cycle is met. -/
structure Session.Fills (env : Env) (target : SlotKey) (e : Table → List TypeNode → Except Fault (List TypeNode))
    (s s' : Session) : Prop where
  evolves : s.Evolves {target} s'
  fills : ∀ ms, s.Filling env target ms → s'.stats.cycleHits = 0 →
    ∃ ms', s'.Filling env target ms' ∧ ∀ F : Table, F.Knows s' → e F ms = .ok ms'

namespace Session

variable {env : Env} {s s' t : Session} {key target : SlotKey} {ms : List TypeNode}
  {e e' : Table → List TypeNode → Except Fault (List TypeNode)}

theorem Filling.setNode {node : Option TypeNode} (h : s.Filling env target ms)
    (hsound : (s.setNode target node).Sound fun _ n => n.IsPlain)
    (hh : ∀ n, node = some n → s.cache.unions.Holds n)
    (hnode : ∀ u, node = some (.union u) → ∃ o, s.cache.unions.owner? u = some o ∧ s.cache.state? o = some .resolved) :
    (s.setNode target node).Filling env target (Distinct.append ms (s.cache.members node)) := by
  refine ⟨h.canonical.setNode h.state hsound hh hnode, NodeCache.state?_setNode h.state, ?_⟩
  rw [← h.members]
  exact NodeCache.members_setNode h.canonical.sound.wellFormed.distinct

theorem Fills.refl : Fills env target (fun _ ms => .ok ms) s s :=
  ⟨.refl _ _, fun ms hms _ => ⟨ms, hms, fun _ _ => rfl⟩⟩

theorem Fills.trans (h : Fills env target e s t) (h' : Fills env target e' t s') :
    Fills env target (fun F ms => e F ms >>= e' F) s s' := by
  refine ⟨h.evolves.trans h'.evolves, fun ms hms h0 => ?_⟩
  obtain ⟨hw, -⟩ := h.evolves hms.canonical.sound.wellFormed
  obtain ⟨-, hg⟩ := h'.evolves hw
  have h0' : t.stats.cycleHits = 0 := Nat.le_zero.1 (h0 ▸ hg.cycles)
  obtain ⟨ms₁, hms₁, he⟩ := h.fills ms hms h0'
  obtain ⟨ms₂, hms₂, he'⟩ := h'.fills ms₁ hms₁ h0
  refine ⟨ms₂, hms₂, fun F hF => ?_⟩
  -- what is known at the end was known before
  rw [he F (hms₁.canonical.knows hms₁.state hg hF)]
  exact he' F hF

theorem Fills.own {n : TypeNode} (hn : n.IsPlain) :
    Fills env target (fun _ ms => .ok (Distinct.append ms [n])) s (s.setNode target (some n)) := by
  have hflat : n.isUnion = false := by cases n <;> first | rfl | cases hn
  refine ⟨.setNode_flat hflat, fun ms hms _ => ⟨_, hms.setNode (hms.canonical.sound.own hflat hn) ?_ ?_, fun F _ => ?_⟩⟩
  · intro m e
    cases e
    exact UnionArena.holds_of_not_union hflat
  · intro u e
    cases e
    cases hn
  · cases n <;> first | rfl | cases hn

end Session

namespace Env

variable {env : Env} {compile : Compile} {fuel : Nat} {target key : SlotKey} {s s' : Session} {ms : List TypeNode}

section Canonical

variable (hv : compile.Visiting) (hc : compile.Canonical env)
include hv hc

/-- Resolving another slot leaves the members of `target`, and the other slot is finished. -/
theorem compile_filling {node : Option TypeNode} (h : s.Filling env target ms)
    (hr : (compile key).run s = .ok (node, s')) (h0 : s'.stats.cycleHits = 0) :
    s'.Filling env target ms ∧ s'.cache.state? key = some .resolved := by
  obtain ⟨hcan, hres⟩ := hc key s node s' h.canonical hr h0
  have hg := (hv _ _ _ _ h.canonical.sound.wellFormed hr).grows
  refine ⟨⟨hcan, hg.cache.state target _ h.state, ?_⟩, hres⟩
  obtain ⟨_, hslot⟩ := NodeCache.state?_eq_some.1 h.state
  rw [hg.cache.members_slot h.canonical.sound.wellFormed (by simp [hslot])]
  exact h.members

theorem compile_fills {node : Option TypeNode} {t : Session} (hr : (compile key).run s = .ok (node, t)) :
    Session.Fills env target (fun F ms => absorb F ms key) s (t.setNode target node) := by
  refine ⟨compile_setNode_evolves hv hr, fun ms hms h0 => ?_⟩
  have hvis := hv _ _ _ _ hms.canonical.sound.wellFormed hr
  obtain ⟨ht, hres⟩ := compile_filling hv hc hms hr h0
  have hfilling := ht.setNode (ht.canonical.sound.merge hvis fun _ h => h) hvis.holds fun u hu => ?_
  · refine ⟨_, hfilling, fun F hF => absorb_of ?_⟩
    have hg : t.Grows {target} (t.setNode target node) :=
      (Session.Evolves.setNode (fun _ => hvis.holds) hvis.wellFormed).2
    rw [ht.canonical.knows ht.state hg hF key hres, hvis.node]
  · obtain ⟨o, ho, hown⟩ := ht.canonical.owner key u (hvis.node.trans hu)
    exact ⟨o, ho, hown.elim (fun e => e ▸ hres) id⟩

theorem mergeDecl_fills {d : DeclId} {u : Unit} (h : (mergeDecl compile target d).run s = .ok (u, s')) :
    Session.Fills env target (fun F ms => absorb F ms (.decl d)) s s' := by
  obtain ⟨node, t, hd, h⟩ := Resolve.bind_ok h
  rw [Resolve.mergeNode_ok h]
  exact compile_fills hv hc hd

theorem forM_mergeDecl_fills {ds : List DeclId} {u : Unit}
    (h : (ds.forM (mergeDecl compile target)).run s = .ok (u, s')) :
    Session.Fills env target (fun F ms => (ds.map .decl).foldlM (absorb F) ms) s s' := by
  induction ds generalizing s with
  | nil => cases h; exact .refl
  | cons d ds ih =>
    obtain ⟨_, t, hd, h⟩ := Resolve.bind_ok h
    exact (mergeDecl_fills hv hc hd).trans (ih h)

/-- Resolves a slot, and goes on with its members. -/
theorem compile_bind_fills {e : List TypeNode → Table → List TypeNode → Except Fault (List TypeNode)}
    {node : Option TypeNode} {t : Session} (hr : (compile key).run s = .ok (node, t)) (hev : t.Evolves {target} s')
    (hrest : ∀ ms, t.Filling env target ms → t.cache.state? key = some .resolved → t.cache.node? key = node →
      s'.stats.cycleHits = 0 → ∃ ms', s'.Filling env target ms' ∧
        ∀ F : Table, F.Knows s' → e (t.cache.members node) F ms = .ok ms') :
    Session.Fills env target (fun F ms => F key >>= fun vs => e vs F ms) s s' := by
  refine ⟨((compile_evolves hv hr).mono (Set.empty_subset _)).trans hev, fun ms hms h0 => ?_⟩
  have hvis := hv _ _ _ _ hms.canonical.sound.wellFormed hr
  obtain ⟨-, hg⟩ := hev hvis.wellFormed
  obtain ⟨ht, hres⟩ := compile_filling hv hc hms hr (Nat.le_zero.1 (h0 ▸ hg.cycles))
  obtain ⟨ms', hms', he⟩ := hrest ms ht hres hvis.node h0
  refine ⟨ms', hms', fun F hF => ?_⟩
  rw [ht.canonical.knows ht.state hg hF key hres, hvis.node]
  exact he F hF

theorem read_fills {base : DeclId} {name : Atom} {u : Unit}
    (h : (runStep env compile fuel target (.read base name)).run s = .ok (u, s')) :
    Session.Fills env target (fun F ms => env.evaluateStep F ms (.read base name)) s s' := by
  obtain ⟨found, t', hf, h⟩ := Resolve.bind_ok h
  obtain ⟨node, t, hb, hev⟩ := searchMember_ok hv hf
  refine compile_bind_fills hv hc hb ((hev.mono (Set.empty_subset _)).trans (forM_mergeDecl_evolves hv h)) ?_
  intro ms hms _ hnode h0
  have hplain : ∀ n ∈ t.cache.members node, n.IsPlain := by
    rw [← hnode]
    exact fun n hn => hms.canonical.sound.cache.members hn
  obtain ⟨node', hb', hfound⟩ := searchMember_plain (fun node' t' hb' => by cases hb.symm.trans hb'; exact hplain) hf
  -- the search has left the session as it was
  cases hb.symm.trans hb'
  obtain ⟨ms', hms', he⟩ := (forM_mergeDecl_fills hv hc h).fills ms hms h0
  refine ⟨ms', hms', fun F hF => ?_⟩
  rw [hfound]
  exact he F hF

theorem mergeFound_fills {name : Atom} {node : Option TypeNode} {rounds position : Nat} {u : Unit}
    (hms : s.Filling env target ms) (hres : s.cache.state? key = some .resolved) (hnode : s.cache.node? key = node)
    (h : (Resolve.foldMembers (fun _ n => do
      let found ← env.searchNode compile fuel n name
      found.forM (mergeDecl compile target)) rounds ⟨node, position⟩ ()).run s = .ok (u, s'))
    (h0 : s'.stats.cycleHits = 0) :
    ∃ ms', s'.Filling env target ms' ∧ ∀ F : Table, F.Knows s' →
      ((s.cache.members node).drop position).foldlM (fun ms n => do
        let found ← env.searchPlain [n] name
        (found.map SlotKey.decl).foldlM (absorb F) ms) ms = .ok ms' := by
  induction rounds generalizing position s ms with
  | zero => cases h
  | succ rounds ih =>
    rw [Resolve.foldMembers] at h
    obtain ⟨_, _, hg, h⟩ := Resolve.bind_ok h
    cases hg
    cases hp : (s.cache.members node)[position]? with
    | none =>
      simp only [Cursor.next?, hp, Option.map_none] at h
      rw [(Resolve.pure_ok h).2, List.drop_eq_nil_of_le (List.getElem?_eq_none_iff.1 hp)]
      exact ⟨ms, hms, fun F _ => rfl⟩
    | some n =>
      simp only [Cursor.next?, hp, Option.map_some] at h
      obtain ⟨_, t, hbody, hrest⟩ := Resolve.bind_ok h
      obtain ⟨found, s₁, hf, hmerge⟩ := Resolve.bind_ok hbody
      have hplain : n.IsPlain := by
        have hn := List.mem_of_getElem? hp
        rw [← hnode] at hn
        exact hms.canonical.sound.cache.members hn
      obtain ⟨hfound, rfl⟩ := searchNode_plain hplain hf
      have hfills : Session.Fills env target (fun F ms => (found.map SlotKey.decl).foldlM (absorb F) ms) s₁ t :=
        forM_mergeDecl_fills hv hc hmerge
      obtain ⟨hw, hg⟩ := hfills.evolves hms.canonical.sound.wellFormed
      obtain ⟨-, hg'⟩ := mergeFound_evolves hv hrest hw
      obtain ⟨ms₁, hms₁, he₁⟩ := hfills.fills ms hms (Nat.le_zero.1 (h0 ▸ hg'.cycles))
      -- the loop reads the members again before each round, but those of a finished slot stay the same
      obtain ⟨hres', hnode', hmembers⟩ := hms.canonical.finished hms.state hg hres
      obtain ⟨ms₂, hms₂, he₂⟩ := ih hms₁ hres' (hnode'.trans hnode) hrest
      rw [hnode] at hmembers
      refine ⟨ms₂, hms₂, fun F hF => ?_⟩
      obtain ⟨hpos, hget⟩ := List.getElem?_eq_some_iff.1 hp
      rw [List.drop_eq_getElem_cons hpos, hget, List.foldlM_cons, hfound, ← hmembers]
      change ((found.map SlotKey.decl).foldlM (absorb F) ms >>= _) = _
      rw [he₁ F (hms₁.canonical.knows hms₁.state hg' hF)]
      exact he₂ F hF

theorem mergeResult_fills {callee call : DeclId} {index : Nat} {u : Unit}
    (h : (mergeResult env compile fuel target callee index call).run s = .ok (u, s')) :
    Session.Fills env target (fun F ms => env.evaluateStep F ms (.result callee index call)) s s' := by
  obtain ⟨node, t, hd, h⟩ := mergeResult_ok h
  rcases h with ⟨hslots, rfl⟩ | ⟨f, _, _, _, returned, t', -, -, hslots, hr, h⟩ | ⟨f, _, _, _, e, -, -, -, -, hslots, h⟩
  · refine compile_bind_fills hv hc hd (.refl _ _) fun ms hms _ _ _ => ⟨ms, hms, fun F _ => ?_⟩
    rw [hslots]
    rfl
  · refine compile_bind_fills hv hc hd (mergeReturned_compile_evolves hv hr h) fun ms hms _ _ h0 => ?_
    have hvis := hv _ _ _ _ hms.canonical.sound.wellFormed hr
    obtain ⟨-, hg⟩ := mergeReturned_evolves (fun _ => hvis.holds) h hvis.wellFormed
    obtain ⟨ht', -⟩ := compile_filling hv hc hms hr (Nat.le_zero.1 (h0 ▸ hg.cycles))
    rw [mergeReturned_of_empty ht'.canonical.sound.substitutions h] at h0 ⊢
    obtain ⟨ms', hms', he⟩ := (compile_fills hv hc hr).fills ms hms h0
    refine ⟨ms', hms', fun F hF => ?_⟩
    rw [hslots, List.foldlM_cons, he F hF]
    rfl
  · refine compile_bind_fills hv hc hd (mergeDecl_evolves hv h) fun ms hms _ _ h0 => ?_
    obtain ⟨ms', hms', he⟩ := (mergeDecl_fills hv hc h).fills ms hms h0
    refine ⟨ms', hms', fun F hF => ?_⟩
    rw [hslots, List.foldlM_cons, he F hF]
    rfl

theorem runStep_fills (hmono : env.arena.Monomorphic) {step : Step} {u : Unit} (hstep : step ∈ env.rule target)
    (h : (runStep env compile fuel target step).run s = .ok (u, s')) :
    Session.Fills env target (fun F ms => env.evaluateStep F ms step) s s' := by
  have hex := explains_of_mem_rule hstep
  cases step with
  | own n =>
    obtain ⟨d, rfl, hown⟩ := hex
    rw [Resolve.mergeNode_ok h]
    exact .own hown.plain
  | merge d => exact mergeDecl_fills hv hc h
  | read base name => exact read_fills hv hc h
  | delegate metatable name =>
    obtain ⟨node, t, hd, h⟩ := Resolve.bind_ok h
    refine compile_bind_fills hv hc hd (mergeFound_evolves hv h) fun ms hms hres hnode h0 => ?_
    exact mergeFound_fills hv hc hms hres hnode h h0
  | result callee index call => exact mergeResult_fills hv hc h
  | template sub =>
    obtain ⟨f, index, sig, -, hsig⟩ := hex
    rw [hmono.signature] at hsig
    cases hsig

theorem steps_fill (hmono : env.arena.Monomorphic) {steps : List Step} {u : Unit}
    (hsteps : ∀ step ∈ steps, step ∈ env.rule target)
    (h : (steps.forM (runStep env compile fuel target)).run s = .ok (u, s')) :
    Session.Fills env target (fun F ms => steps.foldlM (env.evaluateStep F) ms) s s' := by
  induction steps generalizing s with
  | nil => cases h; exact .refl
  | cons step steps ih =>
    obtain ⟨_, t, hstep, h⟩ := Resolve.bind_ok h
    exact (runStep_fills hv hc hmono (hsteps step (by simp)) hstep).trans
      (ih (fun st hst => hsteps st (by simp [hst])) h)

/-- The whole rule of a slot computes what the program gives the slot. -/
theorem runRule_fills (hmono : env.arena.Monomorphic) {u : Unit} (hs : s.substitutions = .empty)
    (h : (runRule env compile fuel target).run s = .ok (u, s')) :
    Session.Fills env target (fun F ms => (env.rule target).foldlM (env.evaluateStep F) ms) s s' := by
  cases target with
  | decl d => exact steps_fill hv hc hmono (fun _ hstep => hstep) h
  | ret f index => exact steps_fill hv hc hmono (fun _ hstep => hstep) h
  | generic i =>
    rcases runSubstitution_ok h with rfl | ⟨sub, _, _, _, _, _, hsub, -⟩
    · exact .refl
    · simp [hs, Substitutions.get?, Substitutions.empty] at hsub

end Canonical

theorem filling_start {kind : String} (h : s.Canonical env) (habs : s.cache.slot? key = none) :
    (s.start key kind).Filling env key [] := by
  have hother : ∀ k, s.cache.state? k = some .resolved → k ≠ key := by
    rintro k hk rfl
    rw [NodeCache.state?, habs] at hk
    cases hk
  have hstate : ∀ k, (s.start key kind).cache.state? k = some .resolved ↔ s.cache.state? k = some .resolved := by
    intro k
    rw [NodeCache.state?, Session.slot?_start]
    split
    · next hk =>
      constructor
      · intro hst
        cases hst
      · exact fun hst => absurd hk (hother k hst)
    · rfl
  have hnode : ∀ k, k ≠ key → (s.start key kind).cache.node? k = s.cache.node? k := by
    intro k hk
    rw [NodeCache.node?, Session.slot?_start, if_neg hk]
    rfl
  have hself : (s.start key kind).cache.node? key = none := by
    rw [NodeCache.node?, Session.slot?_start, if_pos rfl]
    rfl
  refine ⟨⟨h.sound.start habs kind, NodeCache.Calm.start h.owner habs, ?_⟩, ?_, ?_⟩
  · obtain ⟨n, hn⟩ := h.value
    refine ⟨n, fun k hk => ?_⟩
    rw [hstate] at hk
    rw [hnode k (hother k hk)]
    exact hn k hk
  · rw [NodeCache.state?, Session.slot?_start, if_pos rfl]
    rfl
  · rw [hself]
    rfl

theorem canonical_finish {query : Nat} (h : s.Filling env key ms)
    (he : ∀ F : Table, F.Knows s → (env.rule key).foldlM (env.evaluateStep F) [] = .ok ms) :
    (s.finish query key).Canonical env := by
  have hnode : ∀ k, (s.finish query key).cache.node? k = s.cache.node? k := fun k => NodeCache.node?_finish
  refine ⟨h.canonical.sound.finish query, NodeCache.Calm.finish h.canonical.owner, ?_⟩
  · obtain ⟨n, hn⟩ := h.canonical.value
    -- the slot rests on one layer more than those that its rule has read
    refine ⟨n + 1, fun k hk => ?_⟩
    rw [hnode]
    by_cases hkey : k = key
    · subst hkey
      exact (he _ hn).trans (congrArg Except.ok h.members.symm)
    · rw [NodeCache.state?, Session.slot?_finish, if_neg hkey] at hk
      exact evaluate_succ n _ _ (hn k hk)

theorem compileSlot_canonical (hmono : env.arena.Monomorphic) (fuel : Nat) :
    Compile.Canonical env (env.compileSlot fuel) := by
  induction fuel with
  | zero => intro key s node s' _ h; cases h
  | succ fuel ih =>
    intro key s node s' hs h h0
    rcases compileSlot_ok h with ⟨slot, hslot, rfl, rfl⟩ | ⟨t, query, habs, hr, rfl, rfl⟩
    · have hst : s.cache.state? key = some slot.state := by rw [NodeCache.state?, hslot]; rfl
      cases hstate : slot.state with
      | inProgress =>
        -- a slot under way: the cycle is counted
        rw [hstate] at h0
        simp [Session.hit, Session.noteStart, Session.noteEnd] at h0
      | resolved =>
        rw [hstate] at hst
        exact ⟨⟨hs.sound.hit _ _, hs.owner, hs.value⟩, hst⟩
    · have hstart : (s.start key (env.slotKind key)).Filling env key [] := filling_start hs habs
      have hfills := runRule_fills (env.compileSlot_visits fuel) ih hmono hstart.canonical.sound.substitutions hr
      obtain ⟨ms, hms, he⟩ := hfills.fills [] hstart h0
      refine ⟨canonical_finish hms he, ?_⟩
      rw [NodeCache.state?, Session.slot?_finish, if_pos rfl]
      rfl

end Env

/-! ## Two sessions -/

namespace Session

variable {env : Env} {s s' : Session} {qs qs' : List Query} {answers answers' : List Answer}

theorem askAll_canonical (hmono : env.arena.Monomorphic) (hqs : ∀ q ∈ qs, q.isInquiry = true)
    (h : fresh.askAll env qs = .ok (answers, s)) (h0 : s.stats.cycleHits = 0) : s.Canonical env := by
  have hstep : ∀ fuel key t node t', (t.cache.WellFormed ∧ (t.stats.cycleHits = 0 → t.Canonical env)) →
      (env.compileSlot fuel key).run t = .ok (node, t') →
      t'.cache.WellFormed ∧ (t'.stats.cycleHits = 0 → t'.Canonical env) := by
    rintro fuel key t node t' ⟨hw, hcan⟩ hr
    have hvis := env.compileSlot_visits fuel key t node t' hw hr
    refine ⟨hvis.wellFormed, fun h0 => ?_⟩
    have ht := hcan (Nat.le_zero.1 (h0 ▸ hvis.grows.cycles))
    exact (Env.compileSlot_canonical hmono fuel key t node t' ht hr h0).1
  refine (askAll_ok (fun t => t.cache.WellFormed ∧ (t.stats.cycleHits = 0 → t.Canonical env)) ?_ ?_ h).2 h0
  · exact fun q hq t b t' ht ha => ask_ok _ hstep (hqs q hq) ht ha
  · exact ⟨NodeCache.wellFormed_empty, fun _ => .fresh⟩

/-- In a program without type parameters, two sessions that have met no cycle agree on each slot that both
have resolved, member by member and in the same order, whatever either was asked before. -/
theorem askAll_members_eq (hmono : env.arena.Monomorphic)
    (hqs : ∀ q ∈ qs, q.isInquiry = true) (h : fresh.askAll env qs = .ok (answers, s)) (h0 : s.stats.cycleHits = 0)
    (hqs' : ∀ q ∈ qs', q.isInquiry = true) (h' : fresh.askAll env qs' = .ok (answers', s'))
    (h0' : s'.stats.cycleHits = 0) :
    ∀ key, s.cache.state? key = some .resolved → s'.cache.state? key = some .resolved →
      s.cache.members (s.cache.node? key) = s'.cache.members (s'.cache.node? key) := by
  intro key hk hk'
  obtain ⟨n, hn⟩ := (askAll_canonical hmono hqs h h0).value
  obtain ⟨n', hn'⟩ := (askAll_canonical hmono hqs' h' h0').value
  exact Env.evaluate_unique (hn key hk) (hn' key hk')

/-- The result of the call, asked for at once or after the table was searched and the function resolved. -/
theorem askAll_members_eq_call : ∃ answers s answers' s',
    fresh.askAll .sampleCall [.decl ⟨9⟩] = .ok (answers, s) ∧
    fresh.askAll .sampleCall [.searchMember ⟨4⟩ ⟨0⟩, .result ⟨6⟩ 1, .decl ⟨9⟩] = .ok (answers', s') ∧
    s.cache.members (s.cache.node? (.decl ⟨9⟩)) = s'.cache.members (s'.cache.node? (.decl ⟨9⟩)) := by
  obtain ⟨⟨answers, s⟩, hask, h⟩ := Except.exists_ok (x := fresh.askAll .sampleCall [.decl ⟨9⟩])
    (f := fun r => (r.2.stats.cycleHits, r.2.cache.state? (.decl ⟨9⟩))) (b := (0, some .resolved)) (by decide +kernel)
  obtain ⟨⟨answers', s'⟩, hask', h'⟩ := Except.exists_ok
    (x := fresh.askAll .sampleCall [.searchMember ⟨4⟩ ⟨0⟩, .result ⟨6⟩ 1, .decl ⟨9⟩])
    (f := fun r => (r.2.stats.cycleHits, r.2.cache.state? (.decl ⟨9⟩))) (b := (0, some .resolved)) (by decide +kernel)
  obtain ⟨h0, hres⟩ := Prod.mk.inj h
  obtain ⟨h0', hres'⟩ := Prod.mk.inj h'
  exact ⟨answers, s, answers', s', hask, hask',
    askAll_members_eq (by decide +kernel) (by decide) hask h0 (by decide) hask' h0' _ hres hres'⟩

end Session

end LuaInfer
