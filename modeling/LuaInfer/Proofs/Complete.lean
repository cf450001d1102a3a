import LuaInfer.Proofs.Sound
import Mathlib.Data.Finset.Card
import Mathlib.Data.Finset.Range
import Mathlib.Logic.Relation
/-!
# One pass finds everything

In a program without calls, selected results and reads of known members, a rule consists of own nodes
and merges, and the merges form a fixed graph (`Env.Feeds`). A slot that a cycle leads back to is read
while it is under way, so slots inside a cycle may be finished with less than they could have. The slot
that is asked first misses nothing: whatever an inner slot has not got yet is merged further out, in a
slot that is still under way.

The invariant that carries this (`Env.Covers`) is about all slots that appear during a run: the own nodes
of each are among the members of the slot the run is for, and all that feeds it has a slot.
`Session.compileDecl_reaches`: the first query of a session returns, with exactly the own nodes of the
declarations that reach it.
-/

namespace LuaInfer

/-- Calls, selected results and reads of a known member. -/
def DeclKind.isLookup : DeclKind → Bool
  | call .. | select .. => true
  | getMember _ member => member.key?.isSome
  | _ => false

/-- No declaration is a call, a selected result or a read of a known member. -/
def Arena.LookupFree (a : Arena) : Prop := ∀ decl ∈ a.decls, decl.kind.isLookup = false

instance (a : Arena) : Decidable a.LookupFree := inferInstanceAs (Decidable (∀ decl ∈ a.decls, _))

theorem Arena.LookupFree.kind {a : Arena} {d : DeclId} {kind : DeclKind} (h : a.LookupFree)
    (hk : a.kind? d = some kind) : kind.isLookup = false := by
  obtain ⟨decl, hd, rfl⟩ := exists_decl_of_kind? hk
  exact h decl hd

namespace Env

variable {env : Env} {d : DeclId} {s t : Session} {st : Step}

/-- `e` is merged into `d`, at any distance. -/
def Reaches (env : Env) : DeclId → DeclId → Prop := Relation.ReflTransGen fun a b => env.Feeds (.decl a) b

/-- A node is an own node of a declaration that is merged into the slot. -/
def Inherits (env : Env) : SlotKey → TypeNode → Prop
  | .decl d, n => ∃ e, env.Reaches d e ∧ env.Owns e n
  | _, _ => False

theorem Inherits.feed {e : DeclId} {n : TypeNode} (hf : env.Feeds (.decl d) e) (h : env.Inherits (.decl e) n) :
    env.Inherits (.decl d) n := by
  obtain ⟨f, hr, ho⟩ := h
  exact ⟨f, .head hf hr, ho⟩

theorem own_or_merge_of_mem (hfree : env.arena.LookupFree) (h : st ∈ env.declRule d) :
    (∃ n, st = .own n ∧ env.Owns d n) ∨ ∃ e, st = .merge e ∧ env.Feeds (.decl d) e := by
  have hex := explains_declRule h
  cases st with
  | own n => exact .inl ⟨n, rfl, own_mem_declRule.1 h⟩
  | merge e => exact .inr ⟨e, rfl, hex⟩
  | read base name =>
    obtain ⟨_, member, -, hk, hname⟩ := hex
    have := hfree.kind hk
    simp [DeclKind.isLookup, hname] at this
  | delegate metatable name =>
    obtain ⟨_, _, _, _, -, hk, -⟩ := hex
    cases hfree.kind hk
  | result callee index c =>
    obtain ⟨_, -, hk, -⟩ := hex
    cases hfree.kind hk
  | template sub =>
    obtain ⟨_, _, _, hkey, -⟩ := hex
    cases hkey

/-! ## Declarations without a slot -/

/-- Number of declarations that have no slot. -/
def missing (env : Env) (s : Session) : Nat :=
  ((Finset.range env.arena.size).filter fun i => s.cache.slot? (.decl ⟨i⟩) = none).card

theorem missing_le_size : env.missing s ≤ env.arena.size := by
  have h := Finset.card_filter_le (Finset.range env.arena.size) fun i => s.cache.slot? (.decl ⟨i⟩) = none
  rwa [Finset.card_range] at h

theorem missing_mono (h : ∀ k, t.cache.slot? k = none → s.cache.slot? k = none) : env.missing t ≤ env.missing s := by
  refine Finset.card_le_card fun i hi => ?_
  rw [Finset.mem_filter] at hi ⊢
  exact ⟨hi.1, h _ hi.2⟩

theorem missing_start (habs : s.cache.slot? (.decl d) = none) (hd : d.index < env.arena.size) (kind : String) :
    env.missing (s.start (.decl d) kind) < env.missing s := by
  refine Finset.card_lt_card (Finset.ssubset_iff_of_subset ?_ |>.2 ⟨d.index, ?_, ?_⟩)
  · intro i hi
    rw [Finset.mem_filter, Session.slot?_start] at hi
    rw [Finset.mem_filter]
    refine ⟨hi.1, ?_⟩
    by_cases hk : SlotKey.decl ⟨i⟩ = .decl d
    · rw [hk]; exact habs
    · rw [if_neg hk] at hi; exact hi.2
  · rw [Finset.mem_filter]
    exact ⟨Finset.mem_range.2 hd, habs⟩
  · rw [Finset.mem_filter, Session.slot?_start]
    simp

/-! ## Rules under way -/

/-- Each declaration that got its slot between `c` and `c'` has its own nodes among `ms`, and what feeds it
has a slot. -/
def Covers (env : Env) (c c' : NodeCache) (ms : List TypeNode) : Prop :=
  ∀ e, c.slot? (.decl e) = none → c'.slot? (.decl e) ≠ none →
    (∀ n, env.Owns e n → n ∈ ms) ∧ ∀ f, env.Feeds (.decl e) f → c'.slot? (.decl f) ≠ none

/-- With enough fuel for the slots that are missing, declarations are resolved, and what appears on the way
is covered by the node. -/
def Gathering (env : Env) (fuel : Nat) (compile : Compile) : Prop :=
  ∀ d s, s.Sound env.Inherits → env.missing s < fuel → ∃ node s', (compile (.decl d)).run s = .ok (node, s') ∧
    s'.Sound env.Inherits ∧ env.Covers s.cache s'.cache (s'.cache.members node)

/-- The rule of `d` was started in `s` and has come to `t`, with the steps `done` behind it. -/
structure Gathered (env : Env) (d : DeclId) (s : Session) (done : List Step) (t : Session) : Prop where
  sound : t.Sound env.Inherits
  grows : s.Grows {.decl d} t
  own : ∀ n, .own n ∈ done → n ∈ t.cache.members (t.cache.node? (.decl d))
  merged : ∀ e, .merge e ∈ done → t.cache.slot? (.decl e) ≠ none
  covers : env.Covers s.cache t.cache (t.cache.members (t.cache.node? (.decl d)))

theorem Covers.refl (c : NodeCache) (ms : List TypeNode) : env.Covers c c ms := fun _ hnew he => absurd hnew he

/-- One step more, which may resolve other slots (from `t` to `t'`) before it merges a node. What was
covered by the members of `d` still is, since nobody but `d` merges into its slot. -/
theorem Gathered.advance {done : List Step} {t' : Session} {node : Option TypeNode} (h : env.Gathered d s done t)
    (hs : s.cache.slot? (.decl d) ≠ none) (hg : t.Grows ∅ t') (hw : t'.cache.WellFormed)
    (hholds : ∀ n, node = some n → t'.cache.unions.Holds n)
    (hsound : (t'.setNode (.decl d) node).Sound env.Inherits)
    (hcovers : env.Covers t.cache t'.cache (t'.cache.members node))
    (hown : ∀ n, st = .own n → n ∈ t'.cache.members node)
    (hmerged : ∀ e, st = .merge e → t'.cache.slot? (.decl e) ≠ none) :
    env.Gathered d s (done ++ [st]) (t'.setNode (.decl d) node) := by
  have hset : t'.Grows {.decl d} (t'.setNode (.decl d) node) := (Session.Evolves.setNode (fun _ => hholds) hw).2
  have hmem : ∀ m, m ∈ (t'.setNode (.decl d) node).cache.members ((t'.setNode (.decl d) node).cache.node? (.decl d)) ↔
      m ∈ t'.cache.members (t'.cache.node? (.decl d)) ∨ m ∈ t'.cache.members node :=
    fun m => NodeCache.mem_setNode hw
  have hd : t.cache.slot? (.decl d) ≠ none := fun hnone => hs (h.grows.cache.exists_slot hnone)
  have hold : ∀ m ∈ t.cache.members (t.cache.node? (.decl d)),
      m ∈ (t'.setNode (.decl d) node).cache.members ((t'.setNode (.decl d) node).cache.node? (.decl d)) := by
    intro m hm
    rw [← hg.cache.members_slot h.sound.wellFormed hd] at hm
    exact (hmem m).2 (.inl hm)
  have hkeep : ∀ k, t'.cache.slot? k ≠ none → (t'.setNode (.decl d) node).cache.slot? k ≠ none :=
    fun k hk hnone => hk (hset.cache.exists_slot hnone)
  have hkeep' : ∀ k, t.cache.slot? k ≠ none → (t'.setNode (.decl d) node).cache.slot? k ≠ none :=
    fun k hk => hkeep k fun hnone => hk (hg.cache.exists_slot hnone)
  refine ⟨hsound, h.grows.trans ((hg.mono (Set.empty_subset _)).trans hset), fun m hm => ?_, fun e he => ?_, ?_⟩
  · rcases List.mem_append.1 hm with hm | hm
    · exact hold m (h.own m hm)
    · exact (hmem m).2 (.inr (hown m (List.mem_singleton.1 hm).symm))
  · rcases List.mem_append.1 he with he | he
    · exact hkeep' _ (h.merged e he)
    · exact hkeep _ (hmerged e (List.mem_singleton.1 he).symm)
  · intro e hnew he
    have hne : SlotKey.decl e ≠ .decl d := fun heq => hs (heq ▸ hnew)
    have he' : t'.cache.slot? (.decl e) ≠ none := by rwa [Session.slot?_setNode_of_ne hne] at he
    by_cases het : t.cache.slot? (.decl e) = none
    · -- it appeared in this step, so the node that is merged covers it
      obtain ⟨hown', hfed⟩ := hcovers e het he'
      exact ⟨fun m hm => (hmem m).2 (.inr (hown' m hm)), fun f hf => hkeep _ (hfed f hf)⟩
    · obtain ⟨hown', hfed⟩ := h.covers e hnew het
      exact ⟨fun m hm => hold m (hown' m hm), fun f hf => hkeep' _ (hfed f hf)⟩

section Steps

variable {compile : Compile} {done : List Step} {bound : Nat} (hfree : env.arena.LookupFree) (hv : compile.Visiting)
  (hc : env.Gathering bound compile)
include hfree hv hc

theorem runStep_gathers (fuel : Nat) (hstep : st ∈ env.declRule d) (hs : s.cache.slot? (.decl d) ≠ none)
    (hbound : env.missing s < bound) (h : env.Gathered d s done t) :
    ∃ t', (runStep env compile fuel (.decl d) st).run t = .ok ((), t') ∧ env.Gathered d s (done ++ [st]) t' := by
  rcases own_or_merge_of_mem hfree hstep with ⟨n, rfl, ho⟩ | ⟨e, rfl, hf⟩
  · refine ⟨_, rfl, h.advance hs (.refl _ _) h.sound.wellFormed ?_ (h.sound.own ho.not_union ⟨d, .refl, ho⟩)
      (.refl _ _) ?_ (by simp)⟩
    · intro m e
      cases e
      exact UnionArena.holds_of_not_union ho.not_union
    · intro m e
      cases e
      cases ho <;> exact List.mem_singleton.2 rfl
  · have hm : env.missing t < bound := Nat.lt_of_le_of_lt (missing_mono fun k => h.grows.cache.exists_slot) hbound
    obtain ⟨node, t', hr, hsound, hcovers⟩ := hc e t h.sound hm
    have hvis := hv _ _ _ _ h.sound.wellFormed hr
    refine ⟨t'.setNode (.decl d) node, ?_, h.advance hs hvis.grows hvis.wellFormed hvis.holds
      (hsound.merge hvis fun n => .feed hf) hcovers (by simp) ?_⟩
    · rw [runStep, mergeDecl, Resolve.run_bind_of hr]
      rfl
    · intro e' heq
      cases heq
      obtain ⟨state, hslot⟩ := hvis.slot
      simp [hslot]

theorem steps_gather (fuel : Nat) {steps : List Step} (hsteps : ∀ st ∈ steps, st ∈ env.declRule d)
    (hs : s.cache.slot? (.decl d) ≠ none) (hbound : ∀ st ∈ steps, env.missing s < bound)
    (h : env.Gathered d s done t) :
    ∃ t', (steps.forM (runStep env compile fuel (.decl d))).run t = .ok ((), t') ∧
      env.Gathered d s (done ++ steps) t' := by
  induction steps generalizing done t with
  | nil => exact ⟨t, rfl, by simpa using h⟩
  | cons st steps ih =>
    obtain ⟨t₁, hrun, h₁⟩ := runStep_gathers hfree hv hc fuel (hsteps st (by simp)) hs
      (hbound st (by simp)) h
    obtain ⟨t₂, hrest, h₂⟩ := ih (fun st hst => hsteps st (by simp [hst])) (fun st hst => hbound st (by simp [hst])) h₁
    exact ⟨t₂, (Resolve.run_bind_of hrun).trans hrest, by simpa using h₂⟩

end Steps

/-- When the rule of a new slot is through, the slot itself is covered too. -/
theorem Gathered.covers_finish {kind : String} {query : Nat}
    (h : env.Gathered d (s.start (.decl d) kind) (env.declRule d) t) :
    env.Covers s.cache (t.finish query (.decl d)).cache (t.cache.members (t.cache.node? (.decl d))) := by
  have hslot : ∀ k, t.cache.slot? k ≠ none → (t.finish query (.decl d)).cache.slot? k ≠ none := by
    intro k hk
    rw [Session.slot?_finish]
    split
    · simp
    · exact hk
  intro e hnew he
  by_cases hed : SlotKey.decl e = .decl d
  · cases hed
    exact ⟨fun n hn => h.own n (own_mem_declRule.2 hn), fun f hf => hslot _ (h.merged f (merge_mem_declRule.2 hf))⟩
  · have hnew' : (s.start (.decl d) kind).cache.slot? (.decl e) = none := by
      rw [Session.slot?_start, if_neg hed]
      exact hnew
    rw [Session.slot?_finish, if_neg hed] at he
    obtain ⟨hown, hfed⟩ := h.covers e hnew' he
    exact ⟨hown, fun f hf => hslot _ (hfed f hf)⟩

/-- By induction on the fuel: each slot that a rule starts is one less that is missing. -/
theorem compileSlot_gathering (hfree : env.arena.LookupFree) (fuel : Nat) :
    env.Gathering fuel (env.compileSlot fuel) := by
  induction fuel with
  | zero => intro d s _ hm; omega
  | succ fuel ih =>
    intro d s hs hm
    cases hslot : s.cache.slot? (.decl d) with
    | some slot =>
      refine ⟨_, _, compileSlot_of_slot hslot, hs.hit _ _, ?_⟩
      cases hst : slot.state <;> exact .refl _ _
    | none =>
      have hstart : (s.start (.decl d) (env.slotKind (.decl d))).cache.slot? (.decl d) = some ⟨.inProgress, none⟩ := by
        rw [Session.slot?_start, if_pos rfl]
      have hbegin : env.Gathered d (s.start (.decl d) (env.slotKind (.decl d))) []
          (s.start (.decl d) (env.slotKind (.decl d))) :=
        ⟨hs.start hslot _, .refl _ _, by simp, by simp, .refl _ _⟩
      have hbound : ∀ st ∈ env.declRule d, env.missing (s.start (.decl d) (env.slotKind (.decl d))) < fuel := by
        intro st hst
        have := missing_start hslot (index_lt_of_mem_declRule hst) (env.slotKind (.decl d))
        omega
      obtain ⟨t, hrun, ht⟩ := steps_gather hfree (env.compileSlot_visits fuel) ih fuel (fun _ h => h)
        (by simp [hstart]) hbound hbegin
      exact ⟨_, _, compileSlot_of_rule hslot hrun, ht.sound.finish _, ht.covers_finish⟩

theorem size_lt_budget (index : Nat) : env.arena.size < env.budget s index := by
  have hextent : env.arena.size < env.extent s index := by
    unfold extent
    have := Nat.le_mul_of_pos_right (env.arena.size + 1) (show 0 < max index env.maxIndex + 2 by omega)
    omega
  have hpos : 0 < env.extent s index := by omega
  have hle : env.extent s index ≤ env.budget s index :=
    Nat.le_mul_of_pos_left _ (Nat.mul_pos (Nat.mul_pos hpos hpos) hpos)
  omega

end Env

/-! ## The first query -/

/-- In a program without calls, selected results and reads of known members, resolving a declaration in a
fresh session returns, and the members of the node are the own nodes of all declarations that are merged
into it, at any distance and through any cycles. -/
theorem Session.compileDecl_reaches {env : Env} (hfree : env.arena.LookupFree) (d : DeclId) :
    ∃ node s, fresh.compileDecl env d = .ok (node, s) ∧
      ∀ n, n ∈ s.cache.members node ↔ ∃ e, env.Reaches d e ∧ env.Owns e n := by
  have hm : env.missing fresh < env.budget fresh (SlotKey.decl d).result :=
    Nat.lt_of_le_of_lt Env.missing_le_size (Env.size_lt_budget _)
  obtain ⟨node, s, hr, hs, hcovers⟩ := Env.compileSlot_gathering hfree _ d fresh sound_fresh hm
  have hvis := env.compileSlot_visits _ _ _ _ _ NodeCache.wellFormed_empty hr
  -- every slot is new, so the slots are closed under what feeds them
  have hslot : ∀ e, env.Reaches d e → s.cache.slot? (.decl e) ≠ none := by
    intro e hreach
    induction hreach with
    | refl =>
      obtain ⟨state, hslot⟩ := hvis.slot
      simp [hslot]
    | tail _ hf ih => exact (hcovers _ slot?_fresh ih).2 _ hf
  refine ⟨node, s, hr, fun n => ⟨hs.members hvis n, ?_⟩⟩
  rintro ⟨e, hreach, hown⟩
  exact (hcovers e slot?_fresh (hslot e hreach)).1 n hown

/-- The local `y` is merged into `x`, and `x` into `y`: asked first, `y` has the table that only `x` is given. -/
theorem Session.compileDecl_reaches_loop : Env.sampleLoop.arena.LookupFree ∧
    ∃ node s, fresh.compileDecl .sampleLoop ⟨1⟩ = .ok (node, s) ∧
      s.cache.members node = [.leaf ⟨1⟩, .leaf ⟨0⟩, .leaf ⟨4⟩] ∧
      ∀ n, n ∈ s.cache.members node ↔ ∃ e, Env.sampleLoop.Reaches ⟨1⟩ e ∧ Env.sampleLoop.Owns e n := by
  have hfree : Env.sampleLoop.arena.LookupFree := by decide +kernel
  obtain ⟨node, s, hrun, hreach⟩ := compileDecl_reaches hfree ⟨1⟩
  obtain ⟨r, hr, hmembers⟩ := Except.exists_ok (x := fresh.compileDecl .sampleLoop ⟨1⟩)
    (f := fun r => r.2.cache.members r.1) (b := [.leaf ⟨1⟩, .leaf ⟨0⟩, .leaf ⟨4⟩]) (by decide +kernel)
  cases hrun.symm.trans hr
  exact ⟨hfree, node, s, hrun, hmembers, hreach⟩

end LuaInfer
