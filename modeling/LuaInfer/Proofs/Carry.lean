import LuaInfer.Proofs.Run
/-!
# What rules look at

A rule reads the cache, the substitutions and the depth of a session, and nothing else of it. So two runs of it, from
sessions that agree in these and with resolutions that do the same, go the same way. `Resolve.Carries R` says that two
operations, from sessions related by `R`, fail alike or give the same answer and sessions related by `R`. The lemmas here
are one for each operation that a rule consists of, and `Env.runRule_carries` is the result: a rule carries every relation
that the resolution of other slots carries and that merging into its slot respects (`Session.Frame`).

With `R` a relation of two sessions this compares two runs. With `R s s'` saying that `s' = s` and that `s` has some
property, it says that a rule keeps the property.
-/

namespace LuaInfer

namespace Resolve

variable {α β σ : Type} {R : Session → Session → Prop}

/-- The same fault, or the same answer and sessions related by `R`. -/
inductive Agree (R : Session → Session → Prop) : Except Fault (α × Session) → Except Fault (α × Session) → Prop
  | returned {a : α} {s s' : Session} : R s s' → Agree R (.ok (a, s)) (.ok (a, s'))
  | failed {e : Fault} : Agree R (.error e) (.error e)

/-- What is made of the answer does not matter. -/
theorem Agree.map {x x' : Except Fault (α × Session)} (h : Agree R x x') (g : α → β) :
    Agree R (x.map fun (a, s) => (g a, s)) (x'.map fun (a, s) => (g a, s)) := by
  cases h with
  | returned hs => exact .returned hs
  | failed => exact .failed

/-- From sessions related by `R`, both operations do the same. -/
def Carries (R : Session → Session → Prop) (m m' : Resolve α) : Prop :=
  ∀ s s', R s s' → Agree R (m.run s) (m'.run s')

namespace Carries

theorem pure (a : α) : Carries R (Pure.pure a : Resolve α) (Pure.pure a) := fun _ _ h => .returned h

theorem throw (e : Fault) : Carries R (MonadExcept.throw e : Resolve α) (MonadExcept.throw e) := fun _ _ _ => .failed

theorem lift (x : Except Fault α) : Carries R (liftM x : Resolve α) (liftM x) := by
  intro s s' h
  cases x with
  | error e => exact .failed
  | ok a => exact .returned h

theorem bind {m m' : Resolve α} {f f' : α → Resolve β} (h : Carries R m m') (hf : ∀ a, Carries R (f a) (f' a)) :
    Carries R (m >>= f) (m' >>= f') := by
  intro s s' hs
  rw [StateT.run_bind, StateT.run_bind]
  have hagree := h s s' hs
  generalize m.run s = x at hagree ⊢
  generalize m'.run s' = x' at hagree ⊢
  cases hagree with
  | returned ht => exact hf _ _ _ ht
  | failed => exact .failed

/-- Two operations that start by looking at the session. -/
theorem get_bind {f f' : Session → Resolve α} (h : ∀ s s', R s s' → Agree R ((f s).run s) ((f' s').run s')) :
    Carries R (get >>= f) (get >>= f') := h

theorem of_modify {f : Session → Session} (h : ∀ s s', R s s' → R (f s) (f s')) :
    Carries R (modify f : Resolve PUnit) (modify f) := fun s s' hs => .returned (h s s' hs)

theorem of_modifyGet {f f' : Session → α × Session} (h : ∀ s s', R s s' → (f' s').1 = (f s).1 ∧ R (f s).2 (f' s').2) :
    Carries R (modifyGet f : Resolve α) (modifyGet f') := by
  intro s s' hs
  obtain ⟨hanswer, hr⟩ := h s s' hs
  change Agree R (.ok ((f s).1, (f s).2)) (.ok ((f' s').1, (f' s').2))
  rw [hanswer]
  exact .returned hr

theorem forM {f f' : α → Resolve PUnit} {xs : List α} (h : ∀ x ∈ xs, Carries R (f x) (f' x)) :
    Carries R (xs.forM f) (xs.forM f') := by
  induction xs with
  | nil => exact .pure _
  | cons x xs ih => exact .bind (h x (by simp)) fun _ => ih fun y hy => h y (by simp [hy])

theorem mapM {f f' : α → Resolve β} {xs : List α} (h : ∀ x ∈ xs, Carries R (f x) (f' x)) :
    Carries R (xs.mapM f) (xs.mapM f') := by
  induction xs with
  | nil => exact .pure _
  | cons x xs ih =>
    rw [List.mapM_cons, List.mapM_cons]
    exact .bind (h x (by simp)) fun _ => .bind (ih fun y hy => h y (by simp [hy])) fun _ => .pure _

theorem foldMembers {f f' : σ → TypeNode → Resolve σ} (hcache : ∀ s s', R s s' → s'.cache = s.cache)
    (hf : ∀ a n, Carries R (f a n) (f' a n)) (fuel : Nat) (cursor : Cursor) (acc : σ) :
    Carries R (Resolve.foldMembers f fuel cursor acc) (Resolve.foldMembers f' fuel cursor acc) := by
  induction fuel generalizing cursor acc with
  | zero => exact .throw _
  | succ fuel ih =>
    refine .get_bind fun s s' hs => ?_
    rw [hcache s s' hs]
    cases cursor.next? s.cache with
    | none => exact .returned hs
    | some next => exact bind (hf acc next.1) (fun a => ih next.2 a) s s' hs

end Carries

end Resolve

/-- A relation of sessions that the rule of a slot respects: related sessions agree in what a rule reads, and they stay
related when both change alike in what a rule changes. -/
structure Session.Frame (R : Session → Session → Prop) (target : SlotKey) : Prop where
  cache : ∀ s s', R s s' → s'.cache = s.cache
  substitutions : ∀ s s', R s s' → s'.substitutions = s.substitutions
  depth : ∀ s s', R s s' → s'.depth = s.depth
  setNode : ∀ s s' node, R s s' → R (s.setNode target node) (s'.setNode target node)
  setSubstitutions : ∀ (s s' : Session) t, R s s' → R { s with substitutions := t } { s' with substitutions := t }
  setDepth : ∀ (s s' : Session) c, R s s' → R { s with depth := c } { s' with depth := c }

namespace Env

open Resolve

variable {env : Env} {R : Session → Session → Prop} {compile compile' : SlotKey → Resolve (Option TypeNode)}
  {target : SlotKey}

/-! ## Searches -/

section Search

variable (hcache : ∀ s s', R s s' → s'.cache = s.cache) (hc : ∀ key, Carries R (compile key) (compile' key))
include hcache hc

theorem huntNode_carries (name : Atom) (fuel : Nat) (h : Hunt) (n : TypeNode) :
    Carries R (env.huntNode compile name fuel h n) (env.huntNode compile' name fuel h n) := by
  induction fuel generalizing h n with
  | zero => exact .throw _
  | succ fuel ih =>
    cases n with
    | leaf d => exact .pure _
    | global g => exact .lift _
    | generic i => exact .bind (hc _) fun node => .foldMembers hcache ih fuel ⟨node, 0⟩ h
    | union u => exact .foldMembers hcache ih fuel _ h

theorem searchNode_carries (fuel : Nat) (n : TypeNode) (name : Atom) :
    Carries R (env.searchNode compile fuel n name) (env.searchNode compile' fuel n name) :=
  .bind (huntNode_carries hcache hc name fuel _ n) fun _ => .lift _

theorem searchMember_carries (fuel : Nat) (base : DeclId) (name : Atom) :
    Carries R (env.searchMember compile fuel base name) (env.searchMember compile' fuel base name) :=
  .bind (.bind (hc _) fun node => .foldMembers hcache (huntNode_carries hcache hc name fuel) fuel ⟨node, 0⟩ _)
    fun _ => .lift _

end Search

/-! ## Steps -/

section Rule

variable (hR : Session.Frame R target) (hc : ∀ key, Carries R (compile key) (compile' key))
include hR

theorem mergeNode_carries (node : Option TypeNode) : Carries R (mergeNode target node) (mergeNode target node) :=
  .of_modify fun s s' => hR.setNode s s' node

theorem mergeBound_carries (call : DeclId) (n : TypeNode) : Carries R (mergeBound target call n) (mergeBound target call n) := by
  cases n with
  | generic i =>
    refine .get_bind fun s s' hs => ?_
    rw [hR.substitutions s s' hs]
    cases s.substitutions.rebind? i call with
    | none => exact mergeNode_carries hR _ s s' hs
    | some bound => exact .returned (hR.setNode _ _ _ (hR.setSubstitutions s s' bound.2 hs))
  | _ => exact mergeNode_carries hR _

theorem mergeReturned_carries (fuel : Nat) (call : DeclId) (returned : Option TypeNode) :
    Carries R (mergeReturned fuel target call returned) (mergeReturned fuel target call returned) := by
  refine .get_bind fun s s' hs => ?_
  have htemplate : isTemplate s' = isTemplate s := by
    funext n
    cases n with
    | generic i => exact congrArg (·.isTemplate i) (hR.substitutions s s' hs)
    | _ => rfl
  rw [hR.cache s s' hs, htemplate]
  split
  · exact Carries.foldMembers hR.cache (fun _ => mergeBound_carries hR call) fuel _ _ s s' hs
  · exact mergeNode_carries hR _ s s' hs

include hc

theorem mergeDecl_carries (d : DeclId) : Carries R (mergeDecl compile target d) (mergeDecl compile' target d) :=
  .bind (hc _) fun node => mergeNode_carries hR node

theorem mergeResult_carries (fuel : Nat) (callee : DeclId) (index : Nat) (call : DeclId) :
    Carries R (mergeResult env compile fuel target callee index call)
      (mergeResult env compile' fuel target callee index call) := by
  refine .bind (hc _) fun node => .get_bind fun s s' hs => ?_
  rw [hR.cache s s' hs]
  rcases (s.cache.members node).findSome? env.callable? with _ | ⟨func, _ | returns⟩
  · exact .returned hs
  · exact Carries.bind (hc _) (fun returned => mergeReturned_carries hR fuel call returned) s s' hs
  · cases index with
    | zero => exact .returned hs
    | succ position =>
      dsimp only
      cases returns[position]? with
      | none => exact .returned hs
      | some e => exact mergeDecl_carries hR hc e s s' hs

theorem runStep_carries (fuel : Nat) (step : Step) :
    Carries R (runStep env compile fuel target step) (runStep env compile' fuel target step) := by
  cases step with
  | own n => exact mergeNode_carries hR _
  | merge d => exact mergeDecl_carries hR hc d
  | read base name =>
    exact .bind (searchMember_carries hR.cache hc fuel base name) fun found => .forM fun d _ => mergeDecl_carries hR hc d
  | delegate metatable name =>
    refine .bind (hc _) fun node => .foldMembers hR.cache (fun _ n => ?_) fuel _ _
    exact .bind (searchNode_carries hR.cache hc fuel n name) fun found => .forM fun d _ => mergeDecl_carries hR hc d
  | result callee index call => exact mergeResult_carries hR hc fuel callee index call
  | template sub =>
    refine .bind (.of_modifyGet fun s s' hs => ?_) fun i => mergeNode_carries hR _
    rw [hR.substitutions s s' hs]
    exact ⟨rfl, hR.setSubstitutions s s' _ hs⟩

/-! ## Substitutions -/

theorem inferBindings_carries (func call : DeclId) :
    Carries R (inferBindings env compile func call) (inferBindings env compile' func call) := by
  refine .bind (.mapM fun source _ => .bind (hc _) fun node => .get_bind fun s s' hs => ?_) fun _ => .pure _
  rw [hR.cache s s' hs]
  exact .returned hs

theorem instantiate_carries (sig? : Option Signature) (bindings : Bindings) (depth : Nat) (ty : DeclId) :
    Carries R (instantiate env compile target sig? bindings depth ty)
      (instantiate env compile' target sig? bindings depth ty) := by
  induction depth generalizing ty with
  | zero => exact .throw _
  | succ depth ih =>
    rw [instantiate, instantiate]
    cases env.arena.kind? ty with
    | none => exact .pure _
    | some kind =>
      dsimp only
      cases sig?.bind (·.paramUse? kind) with
      | some param => exact .forM fun n _ => mergeNode_carries hR _
      | none =>
        cases kind with
        | tyUnion alternatives => exact .forM fun alternative _ => ih alternative
        | _ => exact mergeDecl_carries hR hc ty

theorem runSubstitution_carries (i : GenericId) :
    Carries R (runSubstitution env compile target i) (runSubstitution env compile' target i) := by
  refine .get_bind fun s s' hs => ?_
  rw [hR.substitutions s s' hs, hR.depth s s' hs]
  cases s.substitutions.get? i with
  | none => exact .returned hs
  | some sub =>
    rcases s.depth.enter with ⟨_ | _, depth⟩
    · exact .returned hs
    · -- entered: the rest runs from sessions that are one instantiation deeper
      have hleave : Carries R
          (do let depth ← (← get).depth.leave.mapError Fault.misuse; modify fun (s : Session) => { s with depth })
          (do let depth ← (← get).depth.leave.mapError Fault.misuse; modify fun (s : Session) => { s with depth }) := by
        refine .get_bind fun t t' ht => ?_
        rw [hR.depth t t' ht]
        exact Carries.bind (.lift _) (fun left => .of_modify fun t t' => hR.setDepth t t' left) t t' ht
      have hinst : ∀ bindings, Carries R
          (do instantiate env compile target (Signature.of? env.arena sub.func) bindings (env.arena.size + 1) sub.proto
              let depth ← (← get).depth.leave.mapError Fault.misuse; modify fun (s : Session) => { s with depth })
          (do instantiate env compile' target (Signature.of? env.arena sub.func) bindings (env.arena.size + 1) sub.proto
              let depth ← (← get).depth.leave.mapError Fault.misuse; modify fun (s : Session) => { s with depth }) :=
        fun bindings => .bind (instantiate_carries hR hc _ bindings _ _) fun _ => hleave
      have hdeep := hR.setDepth s s' depth hs
      rw [hR.substitutions s s' hs] at hdeep
      cases hcall : sub.call with
      | none =>
        simp only [hcall]
        exact hinst [] _ _ hdeep
      | some call =>
        simp only [hcall]
        exact Carries.bind (inferBindings_carries hR hc sub.func call) hinst _ _ hdeep

/-- A rule carries what the resolution of other slots carries. -/
theorem runRule_carries (fuel : Nat) : Carries R (runRule env compile fuel target) (runRule env compile' fuel target) := by
  cases target with
  | decl d => exact .forM fun step _ => runStep_carries hR hc fuel step
  | ret func index => exact .forM fun step _ => runStep_carries hR hc fuel step
  | generic i => exact runSubstitution_carries hR hc i

end Rule

end Env

end LuaInfer
