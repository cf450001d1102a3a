import LuaInfer.Proofs.Final
/-!
# A cut-off is for good

Instantiations inside one another are cut off at a depth that counts from the query on, while a slot keeps what its
rule has found whatever the depth was. So a substitution that one query meets too deep is empty for all later queries,
also for those that ask for it directly: its slot is resolved, and nothing tells it from one that has no types.
`Session.cutoff_sticks` says this of every session, and `Session.cutoff_differs_from_fresh` shows a program in which an
earlier query takes the types away from a later one, without any cycle.
-/

namespace LuaInfer

/-- One more instantiation would be one too many. -/
def Session.Full (s : Session) : Prop := s.depth.maxDepth.toNat ≤ s.depth.depth

theorem DepthCounter.enter_of_le {c : DepthCounter} (h : c.maxDepth.toNat ≤ c.depth) : c.enter = (false, c) := if_pos h

namespace Env

variable {env : Env} {compile : Compile} {target : SlotKey} {s : Session} {i : GenericId}

/-- At the limit the rule of a substitution does nothing, and says that it is done. -/
theorem runSubstitution_of_full (h : s.Full) : (runSubstitution env compile target i).run s = .ok ((), s) := by
  rw [runSubstitution, Resolve.run_bind_of (show (get : Resolve Session).run s = .ok (s, s) from rfl)]
  cases s.substitutions.get? i with
  | none => rfl
  | some sub => simp only [DepthCounter.enter_of_le h]; rfl

theorem compileSlot_of_full {fuel : Nat} (h : s.Full) (habs : s.cache.slot? (.generic i) = none) :
    (env.compileSlot (fuel + 1) (.generic i)).run s =
      .ok (none, (s.start (.generic i) "generic").finish (s.lookups + 1) (.generic i)) := by
  rw [compileSlot_of_rule habs (runSubstitution_of_full h)]
  have hnone : (s.start (.generic i) "generic").cache.node? (.generic i) = none := by
    rw [NodeCache.node?, Session.slot?_start, if_pos rfl]
    rfl
  exact congrArg (fun node => Except.ok (node, _)) hnone

end Env

/-- A table `t` with itself at `x`, the identity on a type parameter, and `n` calls of it: the first one with `t`, and
each other one with the `x` of the one before. -/
def Env.sampleChain (n : Nat) : Env :=
  .of (Program.empty.build ([.table [("x", ⟨1⟩)], .function ["v"], .docGeneric ⟨3⟩ ["T"], .tyName "T",
    .docParam ⟨3⟩ "v" ⟨5⟩, .tyName "T", .docReturn ⟨3⟩ 1 ⟨7⟩] ++ (List.range n).flatMap fun k =>
      [.call ⟨3⟩ [if k = 0 then ⟨1⟩ else ⟨8 + 2 * k⟩], .getField ⟨9 + 2 * k⟩ "x"])).2 {}

namespace Session

/-- Whatever the resolutions around it still do, and whatever is asked after them, a substitution that was met at the
limit has no types until the session is cleared. No cycle is counted. -/
theorem cutoff_sticks (env : Env) (s : Session) (i : GenericId) (fuel : Nat) (hfull : s.Full)
    (habs : s.cache.slot? (.generic i) = none) :
    ∃ s₁, (env.compileSlot (fuel + 1) (.generic i)).run s = .ok (none, s₁) ∧ s₁.stats.cycleHits = s.stats.cycleHits ∧
      ∀ (T : Set SlotKey) (t : Session), .generic i ∉ T → s₁.cache.Grows T t.cache → t.cache.WellFormed →
        ∀ qs answers s₂, (∀ q ∈ qs, q.isInquiry = true) → t.askAll env qs = .ok (answers, s₂) →
          ∃ s₃, s₂.compileGeneric env i = .ok (none, s₃) := by
  refine ⟨_, Env.compileSlot_of_full hfull habs, rfl, fun T t hT hg ht qs answers s₂ hqs h => ?_⟩
  have hresolved := hg.slot (.generic i) hT ⟨.resolved, none⟩ (by
    rw [slot?_finish, if_pos rfl, NodeCache.node?, slot?_start, if_pos rfl]
    rfl)
  have hslot := ((askAll_evolves hqs h).settled ht).slot _ _ hresolved
  exact ⟨_, compile_of_slot hslot⟩

/-- At some depth, the session has the substitution of the first call of the chain and nothing else. -/
def sampleBound (depth : Nat) : Session :=
  { fresh with substitutions := (Substitutions.empty.push ⟨⟨3⟩, ⟨7⟩, some ⟨9⟩⟩).2, depth := ⟨Limits.maxGenericDepth, depth⟩ }

/-- The substitution of a call, asked for directly: a table in a session that has not met it, and nothing, for good, in
one that has met it at the limit. -/
theorem cutoff_sticks_first :
    ((sampleBound 0).compileGeneric (.sampleChain 1) ⟨0⟩).toOption.map Prod.fst = some (some (.leaf ⟨1⟩)) ∧
    ∃ s₁, ((Env.sampleChain 1).compileSlot 1 (.generic ⟨0⟩)).run (sampleBound 32) = .ok (none, s₁) ∧
      ∀ qs answers s₂, (∀ q ∈ qs, q.isInquiry = true) →
        { s₁ with depth := s₁.depth.reset }.askAll (.sampleChain 1) qs = .ok (answers, s₂) →
          ∃ s₃, s₂.compileGeneric (.sampleChain 1) ⟨0⟩ = .ok (none, s₃) := by
  refine ⟨by decide +kernel, ?_⟩
  obtain ⟨s₁, hrun, -, hlater⟩ := cutoff_sticks (.sampleChain 1) (sampleBound 32) ⟨0⟩ 0 (Nat.le_refl 32) slot?_fresh
  have hw := ((Env.sampleChain 1).compileSlot_visits 1 _ _ _ _ NodeCache.wellFormed_empty hrun).wellFormed
  exact ⟨s₁, hrun, hlater ∅ { s₁ with depth := s₁.depth.reset } (by simp) (.refl ∅ _) hw⟩

/-- Two sessions over the same program ask for the substitution that the first call has. One asks for nothing else and
finds the table. The other has asked for the last call of the chain before, and finds nothing; it has met no cycle. -/
theorem cutoff_differs_from_fresh :
    (∃ answers s, fresh.askAll (.sampleChain 33) [.decl ⟨9⟩, .generic ⟨1⟩] = .ok (answers, s) ∧
      s.substitutions.get? ⟨1⟩ = some ⟨⟨3⟩, ⟨7⟩, some ⟨9⟩⟩ ∧
      answers = [.node (some (.generic ⟨1⟩)), .node (some (.leaf ⟨1⟩))]) ∧
    ∃ answers s, fresh.askAll (.sampleChain 33) [.decl ⟨73⟩, .generic ⟨1⟩, .decl ⟨9⟩, .generic ⟨33⟩] = .ok (answers, s) ∧
      s.substitutions.get? ⟨33⟩ = some ⟨⟨3⟩, ⟨7⟩, some ⟨9⟩⟩ ∧ s.stats.cycleHits = 0 ∧
      answers = [.node (some (.generic ⟨1⟩)), .node none, .node (some (.generic ⟨33⟩)), .node none] := by
  constructor
  · obtain ⟨⟨answers, s⟩, hask, hs⟩ := Except.exists_ok (x := fresh.askAll (.sampleChain 33) [.decl ⟨9⟩, .generic ⟨1⟩])
      (f := fun r => (r.2.substitutions.get? ⟨1⟩, r.1)) (b := (some ⟨⟨3⟩, ⟨7⟩, some ⟨9⟩⟩,
        [.node (some (.generic ⟨1⟩)), .node (some (.leaf ⟨1⟩))])) (by decide +kernel)
    simp only [Prod.mk.injEq] at hs
    exact ⟨answers, s, hask, hs⟩
  · obtain ⟨⟨answers, s⟩, hask, hs⟩ := Except.exists_ok
      (x := fresh.askAll (.sampleChain 33) [.decl ⟨73⟩, .generic ⟨1⟩, .decl ⟨9⟩, .generic ⟨33⟩])
      (f := fun r => (r.2.substitutions.get? ⟨33⟩, r.2.stats.cycleHits, r.1)) (b := (some ⟨⟨3⟩, ⟨7⟩, some ⟨9⟩⟩, 0,
        [.node (some (.generic ⟨1⟩)), .node none, .node (some (.generic ⟨33⟩)), .node none])) (by decide +kernel)
    simp only [Prod.mk.injEq] at hs
    exact ⟨answers, s, hask, hs⟩

end Session

end LuaInfer
