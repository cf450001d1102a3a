import LuaInfer.Proofs.Balance
import LuaInfer.Proofs.Built
import LuaInfer.Proofs.Growth
/-!
# Guards and counters are never misused

A session can run out of fuel, but it never faults by misuse: each class that a search enters it leaves,
each search is closed with no class under way, and the depth of instantiations is decreased only after
it was increased. `Resolve.Safe` is what every operation has in common: it runs out of fuel, or it
returns at the depth where it started. No assumption on the session is needed, so it holds after any
merges from outside. `Session.built_never_misuses` says this of every program that a script builds, together
with what keeps its numbers in range: indices of results, depths, and positions of identity groups.
-/

namespace LuaInfer

/-- An operation runs out of fuel, or returns at the depth where it started, with an answer as `P` says. -/
def Resolve.Safe {α : Type} (m : Resolve α) (P : α → Prop) : Prop :=
  ∀ s, m.run s = .error .outOfFuel ∨ ∃ a s', m.run s = .ok (a, s') ∧ s'.depth = s.depth ∧ P a

namespace Resolve

variable {α β σ : Type} {m : Resolve α} {P : α → Prop}

namespace Safe

theorem pure {a : α} (h : P a) : (Pure.pure a : Resolve α).Safe P := fun s => .inr ⟨a, s, rfl, rfl, h⟩

theorem outOfFuel : (throw .outOfFuel : Resolve α).Safe P := fun _ => .inl rfl

theorem bind {f : α → Resolve β} {R : β → Prop} (h : m.Safe P) (hf : ∀ a, P a → (f a).Safe R) :
    (m >>= f).Safe R := by
  intro s
  rcases h s with he | ⟨a, t, hr, hd, hp⟩
  · refine .inl ?_
    rw [StateT.run_bind, he]
    rfl
  · rw [run_bind_of hr]
    rcases hf a hp t with he | ⟨b, s', hr', hd', hq⟩
    · exact .inl he
    · exact .inr ⟨b, s', hr', hd'.trans hd, hq⟩

theorem get : (MonadState.get : Resolve Session).Safe fun _ => True := fun s => .inr ⟨s, s, rfl, rfl, trivial⟩

theorem modify {f : Session → Session} (h : ∀ s, (f s).depth = s.depth) :
    (modify f : Resolve Unit).Safe fun _ => True :=
  fun s => .inr ⟨(), f s, rfl, h s, trivial⟩

theorem modifyGet {f : Session → α × Session} (h : ∀ s, (f s).2.depth = s.depth) :
    (modifyGet f : Resolve α).Safe fun _ => True :=
  fun s => .inr ⟨(f s).1, (f s).2, rfl, h s, trivial⟩

theorem mergeNode (target : SlotKey) (node : Option TypeNode) : (mergeNode target node).Safe fun _ => True :=
  modify fun _ => rfl

theorem lift {x : Except Fault α} {a : α} (h : x = .ok a) (hp : P a) : (liftM x : Resolve α).Safe P := by
  subst h
  exact fun s => .inr ⟨a, s, rfl, rfl, hp⟩

theorem forM {f : α → Resolve Unit} (h : ∀ a, (f a).Safe fun _ => True) (xs : List α) :
    (xs.forM f).Safe fun _ => True := by
  induction xs with
  | nil => exact .pure trivial
  | cons x xs ih => exact .bind (h x) fun _ _ => ih

theorem mapM {f : α → Resolve β} (h : ∀ a, (f a).Safe fun _ => True) (xs : List α) :
    (xs.mapM f).Safe fun _ => True := by
  induction xs with
  | nil => exact .pure trivial
  | cons x xs ih =>
    rw [List.mapM_cons]
    exact .bind (h x) fun _ _ => .bind ih fun _ _ => .pure trivial

theorem foldMembers {f : σ → TypeNode → Resolve σ} {I : σ → Prop} (h : ∀ a n, I a → (f a n).Safe I) (fuel : Nat)
    {cursor : Cursor} {acc : σ} (hacc : I acc) : (foldMembers f fuel cursor acc).Safe I := by
  induction fuel generalizing cursor acc with
  | zero => exact .outOfFuel
  | succ fuel ih =>
    rw [Resolve.foldMembers]
    refine .bind .get fun s _ => ?_
    split
    · exact .pure hacc
    · next n cursor' _ => exact .bind (h acc n hacc) fun _ ha => ih ha

end Safe

end Resolve

/-- Resolving any slot is safe. -/
def Compile.Safe (compile : SlotKey → Resolve (Option TypeNode)) : Prop :=
  ∀ key, (compile key).Safe fun _ => True

namespace Env

open Resolve

variable {env : Env} {compile : SlotKey → Resolve (Option TypeNode)} {target : SlotKey}

section Compile

variable (hc : Compile.Safe compile)
include hc

/-! ## Searches -/

theorem huntNode_safe (name : Atom) (fuel : Nat) {h : Hunt} (n : TypeNode) (hk : env.hunt.Keeps h) :
    (env.huntNode compile name fuel h n).Safe env.hunt.Keeps := by
  induction fuel generalizing h n with
  | zero => exact .outOfFuel
  | succ fuel ih =>
    cases n with
    | leaf d => exact .pure (hk.add _)
    | global g =>
      have hsearch : env.hunt.Returned (env.huntGlobal name (env.huntClass name) g h) :=
        huntGlobal_returns (fun g a ha => huntClass_returns g ha) g hk
      obtain ⟨h', hr, hk'⟩ := hsearch
      exact .lift hr hk'
    | generic i => exact .bind (hc _) fun _ _ => .foldMembers (fun a n ha => ih n ha) fuel hk
    | union u => exact .foldMembers (fun a n ha => ih n ha) fuel hk

omit hc in
theorem close_safe {h : Hunt} (hk : env.hunt.Keeps h) : (liftM h.close : Resolve (List DeclId)).Safe fun _ => True :=
  .lift (hk.close rfl) trivial

theorem searchNode_safe (fuel : Nat) (n : TypeNode) (name : Atom) :
    (env.searchNode compile fuel n name).Safe fun _ => True :=
  .bind (huntNode_safe hc name fuel n (.refl _)) fun _ hk => close_safe hk

theorem searchMember_safe (fuel : Nat) (base : DeclId) (name : Atom) :
    (env.searchMember compile fuel base name).Safe fun _ => True := by
  refine .bind (P := env.hunt.Keeps) ?_ fun _ hk => close_safe hk
  exact .bind (hc _) fun _ _ => .foldMembers (fun a n ha => huntNode_safe hc name fuel n ha) fuel (.refl _)

/-! ## Steps -/

theorem mergeDecl_safe (d : DeclId) : (mergeDecl compile target d).Safe fun _ => True :=
  .bind (hc _) fun _ _ => .mergeNode _ _

omit hc in
theorem mergeBound_safe (call : DeclId) (n : TypeNode) : (mergeBound target call n).Safe fun _ => True := by
  cases n with
  | generic i =>
    refine .bind .get fun s _ => ?_
    split
    · exact .bind (.modify fun _ => rfl) fun _ _ => .mergeNode _ _
    · exact .mergeNode _ _
  | _ => exact .mergeNode _ _

omit hc in
theorem mergeReturned_safe (fuel : Nat) (call : DeclId) (returned : Option TypeNode) :
    (mergeReturned fuel target call returned).Safe fun _ => True := by
  refine .bind .get fun s _ => ?_
  split
  · exact .foldMembers (fun _ n _ => mergeBound_safe call n) fuel trivial
  · exact .mergeNode _ _

theorem mergeResult_safe (fuel : Nat) (callee : DeclId) (index : Nat) (call : DeclId) :
    (mergeResult env compile fuel target callee index call).Safe fun _ => True := by
  refine .bind (hc _) fun node _ => .bind .get fun s _ => ?_
  split
  · exact .pure trivial
  · exact .bind (hc _) fun returned _ => mergeReturned_safe fuel call returned
  · next returns _ =>
    split
    · exact .pure trivial
    · next position =>
      cases returns[position]? with
      | none => exact .pure trivial
      | some e => exact mergeDecl_safe hc e

theorem runStep_safe (fuel : Nat) (step : Step) : (runStep env compile fuel target step).Safe fun _ => True := by
  cases step with
  | own n => exact .mergeNode _ _
  | merge d => exact mergeDecl_safe hc d
  | read base name =>
    exact .bind (searchMember_safe hc fuel base name) fun found _ => .forM (mergeDecl_safe hc) found
  | delegate metatable name =>
    refine .bind (hc _) fun node _ => .foldMembers (fun _ n _ => ?_) fuel trivial
    exact .bind (searchNode_safe hc fuel n name) fun found _ => .forM (mergeDecl_safe hc) found
  | result callee index call => exact mergeResult_safe hc fuel callee index call
  | template sub => exact .bind (.modifyGet fun _ => rfl) fun i _ => .mergeNode _ _

/-! ## Substitutions -/

theorem inferBindings_safe (func call : DeclId) : (inferBindings env compile func call).Safe fun _ => True := by
  refine .bind (.mapM (fun entry => ?_) _) fun _ _ => .pure trivial
  exact .bind (hc _) fun _ _ => .bind .get fun _ _ => .pure trivial

theorem instantiate_safe (sig? : Option Signature) (bindings : Bindings) (depth : Nat) (ty : DeclId) :
    (instantiate env compile target sig? bindings depth ty).Safe fun _ => True := by
  induction depth generalizing ty with
  | zero => exact .outOfFuel
  | succ depth ih =>
    rw [instantiate]
    split
    · exact .pure trivial
    · split
      · exact .forM (fun n => .mergeNode _ _) _
      · split
        · exact .forM ih _
        · exact mergeDecl_safe hc ty

omit hc in
/-- The depth is one more while a substitution is instantiated, so it can be decreased afterwards. -/
theorem leave_safe {m : Resolve Unit} (hm : m.Safe fun _ => True) {s : Session} {depth : DepthCounter}
    (he : s.depth.enter = (true, depth)) {x : Except Fault (Unit × Session)}
    (hx : (do
      m
      let depth ← (← get).depth.leave.mapError Fault.misuse
      modify ({ · with depth }) : Resolve Unit).run { s with depth } = x) :
    x = .error .outOfFuel ∨ ∃ a s', x = .ok (a, s') ∧ s'.depth = s.depth ∧ True := by
  subst hx
  rcases hm { s with depth } with herr | ⟨_, t, hr, hd, -⟩
  · refine .inl ?_
    rw [StateT.run_bind, herr]
    rfl
  · have hleave : t.depth.leave = .ok s.depth := by
      rw [hd]
      exact DepthCounter.leave_enter he
    rw [run_bind_of hr, run_bind_of (a := t) (t := t) rfl, hleave]
    exact .inr ⟨(), { t with depth := s.depth }, rfl, rfl, trivial⟩

theorem runSubstitution_safe (i : GenericId) : (runSubstitution env compile target i).Safe fun _ => True := by
  intro s
  rw [runSubstitution, run_bind_of (a := s) (t := s) rfl]
  cases s.substitutions.get? i with
  | none => exact .inr ⟨(), s, rfl, rfl, trivial⟩
  | some sub =>
    dsimp only
    cases he : s.depth.enter with
    | mk entered depth =>
      cases entered with
      | false => exact .inr ⟨(), s, rfl, rfl, trivial⟩
      | true =>
        cases hcall : sub.call with
        | none =>
          simp only [if_true]
          exact leave_safe (instantiate_safe hc _ [] _ _) he rfl
        | some call =>
          simp only [if_true]
          refine leave_safe (m := do
            let bindings ← inferBindings env compile sub.func call
            instantiate env compile target (Signature.of? env.arena sub.func) bindings (env.arena.size + 1) sub.proto)
            (.bind (inferBindings_safe hc _ _) fun bindings _ => instantiate_safe hc _ bindings _ _) he ?_
          rw [bind_assoc]
          rfl

theorem runRule_safe (fuel : Nat) : (runRule env compile fuel target).Safe fun _ => True := by
  cases target with
  | decl d => exact .forM (runStep_safe hc fuel) _
  | ret f index => exact .forM (runStep_safe hc fuel) _
  | generic i => exact runSubstitution_safe hc i

end Compile

theorem compileSlot_safe (env : Env) (fuel : Nat) : Compile.Safe (env.compileSlot fuel) := by
  induction fuel with
  | zero => exact fun _ => .outOfFuel
  | succ fuel ih =>
    intro key
    rw [compileSlot]
    refine .bind .get fun s _ => ?_
    split
    · next slot _ =>
      refine .bind (.modify fun s => ?_) fun _ _ => .pure trivial
      cases slot.state <;> rfl
    · exact .bind (.modifyGet fun _ => rfl) fun query _ => .bind (runRule_safe ih fuel) fun _ _ => .modifyGet fun _ => rfl

end Env

/-! ## Queries -/

theorem Resolve.Safe.ne_misuse {α : Type} {m : Resolve α} {P : α → Prop} (h : m.Safe P) (s : Session) (cause : Misuse) :
    m.run s ≠ .error (.misuse cause) := by
  rcases h s with he | ⟨_, _, hr, -⟩
  · rw [he]
    simp
  · rw [hr]
    simp

theorem Session.ask_ne_misuse (env : Env) (s : Session) (q : Query) (cause : Misuse) :
    s.ask env q ≠ .error (.misuse cause) := by
  have hc : ∀ fuel, Compile.Safe (env.compileSlot fuel) := env.compileSlot_safe
  cases q with
  | decl _ | result _ _ | generic _ => exact Except.map_ne_error ((hc _ _).ne_misuse s cause)
  | search node name => exact Except.map_ne_error ((Env.searchNode_safe (hc _) _ node name).ne_misuse s cause)
  | searchMember base name => exact Except.map_ne_error ((Env.searchMember_safe (hc _) _ base name).ne_misuse s cause)
  | searchClass g name =>
    obtain ⟨found, hr⟩ := env.searchClass_returns g name
    refine Except.map_ne_error ?_
    rw [hr]
    simp
  | signature _ | setNode _ _ | clear => simp [ask]

theorem Session.askAll_ne_misuse (env : Env) (s : Session) (qs : List Query) (cause : Misuse) :
    s.askAll env qs ≠ .error (.misuse cause) := by
  induction qs generalizing s with
  | nil => simp [askAll]
  | cons q qs ih =>
    rw [askAll]
    cases hq : s.ask env q with
    | error e =>
      intro h
      refine ask_ne_misuse env s q cause (hq.trans ?_)
      cases h
      rfl
    | ok r =>
      change ((r.2.askAll env qs) >>= _) ≠ _
      cases hqs : r.2.askAll env qs with
      | error e =>
        intro h
        refine ih r.2 (hqs.trans ?_)
        cases h
        rfl
      | ok r' =>
        intro h
        cases h

/-! ## Numbers in range -/

/-- Subtraction that tells when it would go below zero. -/
def minus? (m n : Nat) : Option Nat := if n ≤ m then some (m - n) else none

namespace Env

/-- `listSteps` for a 32-bit index. The position of the last expression is cut to 32 bits, and there is no
result if a subtraction goes below zero. -/
def listSteps32 (env : Env) (exprs : List DeclId) (index : UInt32) : Option (List Step) :=
  match minus? index.toNat 1 with
  | none => some []
  | some position =>
    match exprs[position]? with
    | some expr =>
      match env.arena.kind? expr with
      | some (.call callee args) => some (env.callSteps expr callee args 1)
      | _ => some [.merge expr]
    | none =>
      match exprs.getLast? with
      | none => some []
      | some expr => do
        let shifted ← minus? index.toNat (UInt32.ofNat (exprs.length - 1)).toNat
        match env.arena.kind? expr with
        | some (.call callee args) => return env.callSteps expr callee args shifted
        | _ => return []

/-- `argument?`, with no result if a subtraction goes below zero. -/
def argumentChecked (env : Env) (call : DeclId) (position : Nat) : Option (Option DeclId) :=
  match env.arena.kind? call with
  | some (.call callee args) =>
    match env.arena.kind? callee with
    | some (.getMember base (.method _)) =>
      if position = 0 then some (some base) else (minus? position 1).map fun p => args[p]?
    | _ => some args[position]?
  | _ => some none

theorem listSteps32_eq (env : Env) {exprs : List DeclId} (h : exprs.length < UInt32.size) (index : UInt32) :
    env.listSteps32 exprs index = some (env.listSteps exprs index.toNat) := by
  unfold listSteps32 listSteps
  cases hi : index.toNat with
  | zero => rfl
  | succ position =>
    have hone : minus? (position + 1) 1 = some position := by simp [minus?]
    rw [hone]
    dsimp only
    cases hp : exprs[position]? with
    | some expr =>
      dsimp only
      rcases env.arena.kind? expr with _ | kind
      · rfl
      · cases kind <;> rfl
    | none =>
      dsimp only
      cases hl : exprs.getLast? with
      | none => rfl
      | some expr =>
        -- the index is past the end of the list, so it is larger than the position of the last expression
        have hlast : (UInt32.ofNat (exprs.length - 1)).toNat = exprs.length - 1 := by
          rw [UInt32.toNat_ofNat']
          exact Nat.mod_eq_of_lt (Nat.lt_of_le_of_lt (Nat.sub_le _ _) h)
        have hpast : exprs.length ≤ position := List.getElem?_eq_none_iff.1 hp
        have hshift : minus? (position + 1) (exprs.length - 1) = some (position + 1 - (exprs.length - 1)) := by
          rw [minus?, if_pos (by omega)]
        rw [hlast, hshift]
        simp only [Option.bind_eq_bind, Option.bind_some]
        rcases env.arena.kind? expr with _ | kind
        · rfl
        · cases kind <;> rfl

theorem argumentChecked_eq (env : Env) (call : DeclId) (position : Nat) :
    env.argumentChecked call position = some (env.argument? call position) := by
  unfold argumentChecked argument?
  rcases env.arena.kind? call with _ | kind
  · rfl
  · cases kind with
    | call callee args =>
      dsimp only
      rcases env.arena.kind? callee with _ | kind
      · rfl
      · cases kind with
        | getMember base member =>
          cases member with
          | method name =>
            cases position with
            | zero => rfl
            | succ p => simp [minus?]
          | _ => rfl
        | _ => rfl
    | _ => rfl

end Env

theorem Guard.depth_lt_of_enter {κ : Type} [DecidableEq κ] {g g' : Guard κ} {key : κ}
    (h : g.enter key = (.entered, g')) : g'.depth < UInt32.size := by
  rcases g.enter_cases key with ⟨g'', he, -, hlt, -, -, hd⟩ | ⟨e, g'', he, hne, -⟩
  · rw [h] at he
    cases he
    have hmax : g.limits.maxDepth.toNat < UInt32.size := g.limits.maxDepth.toNat_lt
    omega
  · rw [h] at he
    cases he
    exact absurd rfl hne

theorem DepthCounter.depth_lt_of_enter {c c' : DepthCounter} (h : c.enter = (true, c')) : c'.depth < UInt32.size := by
  unfold enter at h
  split at h
  · cases h
  · cases h
    have hmax : c.maxDepth.toNat < UInt32.size := c.maxDepth.toNat_lt
    dsimp only
    omega

/-- In no program that a script builds, with no options and from no state of a session, does a query misuse a
guard or a counter, however much fuel it has. What counts in 32 bits stays below that: depths, and the shift of
an index past the end of an expression list, where no subtraction goes below zero. And each recorded
identity has its group. -/
theorem Session.built_never_misuses {p : Program} (hp : p.Built) (options : Options) :
    (∀ (s : Session) (qs : List Query) (cause : Misuse), s.askAll (.of p options) qs ≠ .error (.misuse cause)) ∧
    (∀ (fuel : Nat) (s : Session) (cause : Misuse),
      (∀ key, ((Env.of p options).compileSlot fuel key).run s ≠ .error (.misuse cause)) ∧
      (∀ node name, ((Env.of p options).searchNode ((Env.of p options).compileSlot fuel) fuel node name).run s ≠
        .error (.misuse cause)) ∧
      ∀ base name, ((Env.of p options).searchMember ((Env.of p options).compileSlot fuel) fuel base name).run s ≠
        .error (.misuse cause)) ∧
    (∀ g name, ∃ found, (Env.of p options).searchClass g name = .ok found) ∧
    (∀ (g g' : Guard GlobalId) key, g.enter key = (.entered, g') → g'.depth < UInt32.size) ∧
    (∀ c c' : DepthCounter, c.enter = (true, c') → c'.depth < UInt32.size) ∧
    (∀ exprs index, exprs.length < UInt32.size →
      (Env.of p options).listSteps32 exprs index = some ((Env.of p options).listSteps exprs index.toNat)) ∧
    (∀ call position, (Env.of p options).argumentChecked call position =
      some ((Env.of p options).argument? call position)) ∧
    ∀ (d : DeclId) (i : Nat), p.identities.home[d]? = some i → i < p.identities.groups.size := by
  have hc : ∀ fuel, Compile.Safe ((Env.of p options).compileSlot fuel) := (Env.of p options).compileSlot_safe
  refine ⟨askAll_ne_misuse _, fun fuel s cause => ⟨fun key => (hc fuel key).ne_misuse s cause, fun node name => ?_,
    fun base name => ?_⟩, Env.searchClass_returns _, fun _ _ _ => Guard.depth_lt_of_enter,
    fun _ _ => DepthCounter.depth_lt_of_enter, fun _ index h => Env.listSteps32_eq _ h index,
    Env.argumentChecked_eq _, hp.formed.home⟩
  · exact (Env.searchNode_safe (hc fuel) fuel node name).ne_misuse s cause
  · exact (Env.searchMember_safe (hc fuel) fuel base name).ne_misuse s cause

/-- Two classes that extend each other. -/
def Program.sampleCycle : Program := (withBuiltins.build [.docClass "A" ["B"], .docClass "B" ["A"]]).2

/-- No query misuses a guard on a cycle of classes under the largest depth limit. -/
theorem Session.built_never_misuses_cycle : Program.sampleCycle.Built ∧
    ∀ (s : Session) (qs : List Query) (cause : Misuse),
      s.askAll (.of .sampleCycle { maxClassDepth := 4294967295 }) qs ≠ .error (.misuse cause) := by
  have hbuilt : Program.sampleCycle.Built := ⟨_, .inr rfl⟩
  exact ⟨hbuilt, (built_never_misuses hbuilt _).1⟩

end LuaInfer
