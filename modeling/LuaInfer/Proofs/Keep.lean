import LuaInfer.Proofs.Regime
/-!
# What a rule keeps

A rule resolves other slots and merges nodes into its own slot, and nothing else that it does is seen in the cache. So
whatever resolving other slots keeps, and merging into the slot keeps (`NodeCache.Absorbs`), the whole rule keeps
(`Env.runRule_keeps`): it is a `Regime` in which every node is allowed. What all rules keep, resolving a slot keeps
(`Env.compileSlot_keeps`), and so does every query that merges nothing from outside (`Session.askAll_keeps`).
-/

namespace LuaInfer

/-- `I` is about well-formed caches, and whatever is merged into `target` leaves it true. -/
structure NodeCache.Absorbs (target : SlotKey) (I : NodeCache → Prop) : Prop where
  wellFormed : ∀ c, I c → c.WellFormed
  setNode : ∀ c node, I c → (∀ n, node = some n → c.unions.Holds n) → I (c.setNode target node)

/-- A node that is no union can be merged at any time. -/
theorem NodeCache.Absorbs.flat {target : SlotKey} {I : NodeCache → Prop} {c : NodeCache} {n : TypeNode}
    (h : Absorbs target I) (hc : I c) (hn : n.isUnion = false) : I (c.setNode target (some n)) :=
  h.setNode c (some n) hc (UnionArena.holds_some hn)

/-- Resolving a slot keeps `I`. -/
def Compile.Keeps (I : NodeCache → Prop) (compile : Compile) : Prop :=
  ∀ key s node s', I s.cache → (compile key).run s = .ok (node, s') → I s'.cache

/-- A property of caches is kept, and any node may be merged. -/
def Regime.ofCache (env : Env) (I : NodeCache → Prop) (hI : ∀ c, I c → c.WellFormed) : Regime env where
  Holds s := I s.cache
  Allows _ _ := True
  wellFormed h := hI _ h
  plain _ := trivial
  member _ _ := trivial
  grows _ _ := trivial
  bind _ h := h
  new _ _ := trivial

namespace Env

variable {env : Env} {compile : Compile} {fuel : Nat} {target key : SlotKey} {s s' : Session} {I : NodeCache → Prop}

section
variable (hset : NodeCache.Absorbs target I) (hv : compile.Visiting) (hk : compile.Keeps I)
include hset

theorem absorbs_ofCache : (Regime.ofCache env I hset.wellFormed).Absorbs target := by
  intro s n hs _ hn
  refine hset.setNode s.cache (some n) hs ?_
  rintro _ ⟨⟩
  exact hn

include hk in
theorem serves_ofCache : (Regime.ofCache env I hset.wellFormed).Serves compile :=
  fun key s node s' hs _ h => ⟨hk key s node s' hs h, fun _ _ => trivial⟩

include hv hk

theorem runStep_keeps {step : Step} {u : Unit} (hstep : step ∈ env.rule key) (hs : I s.cache)
    (h : (runStep env compile fuel target step).run s = .ok (u, s')) : I s'.cache :=
  Regime.runStep_upholds (absorbs_ofCache hset) hv (serves_ofCache hset hk) hstep hs h

/-- What merging into a slot and resolving others keep, the rule of the slot keeps. -/
theorem runRule_keeps {u : Unit} (hs : I s.cache) (h : (runRule env compile fuel target).run s = .ok (u, s')) :
    I s'.cache :=
  Regime.runRule_upholds (R := .ofCache env I hset.wellFormed) (fun _ _ hs => hs) (absorbs_ofCache hset) hv
    (serves_ofCache hset hk) hs h

end

/-- What starting and finishing slots and running their rules keep, resolving a slot keeps. -/
theorem compileSlot_keeps (hstart : ∀ c key, I c → c.slot? key = none → I (c.start key))
    (hfinish : ∀ c key, I c → I (c.finish key))
    (hrule : ∀ fuel key s s' (u : Unit), Compile.Keeps I (env.compileSlot fuel) → I s.cache →
      s.cache.slot? key = some ⟨.inProgress, none⟩ →
      (runRule env (env.compileSlot fuel) fuel key).run s = .ok (u, s') → I s'.cache)
    (fuel : Nat) : Compile.Keeps I (env.compileSlot fuel) := by
  induction fuel with
  | zero => intro key s node s' _ h; cases h
  | succ fuel ih =>
    intro key s node s' hs h
    rcases compileSlot_ok h with ⟨slot, -, -, rfl⟩ | ⟨t, query, habs, hr, -, rfl⟩
    · rw [(Session.cache_hit s key (env.slotKind key) slot.state).1]
      exact hs
    · refine hfinish _ _ (hrule fuel key _ _ _ ih (hstart _ _ hs habs) ?_ hr)
      rw [Session.slot?_start, if_pos rfl]

end Env

/-- What resolving slots keeps, queries that merge nothing from outside keep. -/
theorem Session.askAll_keeps {env : Env} (I : NodeCache → Prop) {qs : List Query} {answers : List Answer} {s : Session}
    (hempty : I .empty) (hk : ∀ fuel, Compile.Keeps I (env.compileSlot fuel)) (hqs : ∀ q ∈ qs, q.merges = false)
    (h : fresh.askAll env qs = .ok (answers, s)) : I s.cache := by
  refine askAll_ok (fun t => I t.cache) (fun q hq t b t' ht ha => ?_) hempty h
  by_cases hinquiry : q.isInquiry = true
  · exact ask_ok (fun t => I t.cache) (fun fuel key t node t' ht hr => hk fuel key t node t' ht hr) hinquiry ht ha
  · cases q with
    | clear =>
      cases ha
      exact hempty
    | setNode key node => cases hqs _ hq
    | _ => exact absurd rfl hinquiry

end LuaInfer
