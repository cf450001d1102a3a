import LuaInfer.Proofs.Final
import LuaInfer.Proofs.Search
/-!
# No spurious members

Unions are shared: a slot may hold a union that another slot owns and still adds to. What makes this
sound is that a slot holds a foreign union only if it may hold whatever the owner may hold
(`NodeCache.Justified`). Then the owner can add what is right for the owner, and it is right for every
holder. `NodeCache.Sound` says this of a whole cache, for any relation `D` between slots and nodes.

`Session.askAll_derives`: in a program without type parameters, after any inquiries, each member of each
slot is one that `Env.Derives` gives the slot.
-/

namespace LuaInfer

namespace NodeCache

variable {D : SlotKey → TypeNode → Prop} {c c' : NodeCache} {key k b : SlotKey} {n m : TypeNode}

/-- By `D`, slot `k` may hold the node, now and when it grows. -/
def Justified (D : SlotKey → TypeNode → Prop) (c : NodeCache) (k : SlotKey) : TypeNode → Prop
  | .union u => ∃ owner, c.unions.owner? u = some owner ∧ ∀ n, D owner n → D k n
  | n => D k n

/-- Slots hold what they may, and the members of a union are right for its owner. -/
structure Sound (D : SlotKey → TypeNode → Prop) (c : NodeCache) : Prop where
  node : ∀ k n, c.node? k = some n → c.Justified D k n
  member : ∀ u k, c.unions.owner? u = some k → ∀ n ∈ c.unions.members u, D k n

theorem Justified.of_flat (hn : n.isUnion = false) (h : D k n) : c.Justified D k n := by
  cases n with
  | union u => cases hn
  | _ => exact h

theorem Justified.feed (h : c.Justified D b n) (hD : ∀ n, D b n → D k n) : c.Justified D k n := by
  cases n with
  | union u =>
    obtain ⟨owner, ho, hb⟩ := h
    exact ⟨owner, ho, fun n hn => hD n (hb n hn)⟩
  | _ => exact hD _ h

theorem Justified.grows {T : Set SlotKey} (h : c.Justified D k n) (hg : c.Grows T c') : c'.Justified D k n := by
  cases n with
  | union u =>
    obtain ⟨owner, ho, hb⟩ := h
    exact ⟨owner, hg.owner u owner ho, hb⟩
  | _ => exact h

namespace Sound

theorem flatten (h : c.Sound D) (hn : c.Justified D k n) (hm : m ∈ c.unions.flatten n) : D k m := by
  cases n with
  | union u =>
    obtain ⟨owner, ho, hb⟩ := hn
    exact hb m (h.member u owner ho m hm)
  | _ => cases List.mem_singleton.1 hm; exact hn

theorem members (h : c.Sound D) (hm : m ∈ c.members (c.node? k)) : D k m := by
  cases hk : c.node? k with
  | none => rw [hk] at hm; cases hm
  | some n => rw [hk] at hm; exact h.flatten (h.node k n hk) hm

theorem empty : NodeCache.empty.Sound D := by
  refine ⟨?_, ?_⟩ <;> intros <;> simp_all [NodeCache.empty, node?, slot?, UnionArena.owner?, UnionArena.empty]

theorem start (h : c.Sound D) : (c.start key).Sound D where
  node k n hn := by
    rw [node?_start] at hn
    split at hn
    · cases hn
    · exact h.node k n hn
  member := h.member

theorem finish (h : c.Sound D) : (c.finish key).Sound D where
  node k n hn := h.node k n (by simpa using hn)
  member := h.member

theorem storeUnion {node : TypeNode} (h : c.Sound D) (hk : c.node? key = some node) (hn : c.Justified D key n) :
    (c.storeUnion key node n).Sound D where
  node k m hm := by
    rw [storeUnion_eq, node?_store] at hm
    split at hm
    · next hkey =>
      cases hm
      subst hkey
      exact ⟨k, UnionArena.owner?_make_self, fun _ h => h⟩
    · have hj := h.node k m hm
      cases m with
      | union u =>
        obtain ⟨owner, ho, hb⟩ := hj
        exact ⟨owner, (UnionArena.owner?_make (UnionArena.lt_of_owner? ho)).trans ho, hb⟩
      | _ => exact hj
  member u k ho m hm := by
    rw [storeUnion_eq, unions_store] at ho hm
    rcases UnionArena.mem_make hm with ⟨hu, hx⟩ | ⟨rfl, hx⟩
    · rw [UnionArena.owner?_make hu] at ho
      exact h.member u k ho m hx
    · -- the new union has what the slot had and what is merged
      rw [UnionArena.owner?_make_self] at ho
      cases ho
      exact hx.elim (h.flatten (h.node key node hk)) (h.flatten hn)

/-- Merging a node that the slot may hold keeps a cache sound. -/
theorem setNode {node : Option TypeNode} (h : c.Sound D) (hn : ∀ n, node = some n → c.Justified D key n) :
    (c.setNode key node).Sound D := by
  cases node with
  | none => exact h
  | some n =>
    have hj := hn n rfl
    rcases setNode_cases c key n with ⟨-, e⟩ | ⟨_, -, -, e⟩ | ⟨u, -, ho, e⟩ | ⟨node, hk, -, e⟩ <;> rw [e]
    · refine ⟨fun k m hm => ?_, h.member⟩
      rw [node?_store] at hm
      split at hm
      · next hkey => cases hm; subst hkey; exact hj
      · exact h.node k m hm
    · exact h
    · -- the slot's own union grows, by what is right for the slot and so for all that hold the union
      refine ⟨fun k m hm => ?_, fun v k hv m hm => ?_⟩
      · have hjm := h.node k m hm
        cases m with
        | union v =>
          obtain ⟨owner, hv, hb⟩ := hjm
          exact ⟨owner, UnionArena.owner?_add.trans hv, hb⟩
        | _ => exact hjm
      · have hv' : c.unions.owner? v = some k := UnionArena.owner?_add.symm.trans hv
        by_cases hvu : v = u
        · subst hvu
          rw [ho] at hv'
          cases hv'
          rw [UnionArena.members_add_self (UnionArena.lt_of_owner? ho), Distinct.mem_append] at hm
          exact hm.elim (h.member v key ho m) (h.flatten hj)
        · rw [UnionArena.members_add_of_ne hvu] at hm
          exact h.member v k hv' m hm
    · exact h.storeUnion hk hj

end Sound

end NodeCache

/-! ## Programs without type parameters -/

/-- Annotations that declare type parameters. -/
def DeclKind.isGeneric : DeclKind → Bool
  | docGeneric .. => true
  | _ => false

/-- No annotation declares a type parameter. -/
def Arena.Monomorphic (a : Arena) : Prop := ∀ decl ∈ a.decls, decl.kind.isGeneric = false

instance (a : Arena) : Decidable a.Monomorphic := inferInstanceAs (Decidable (∀ decl ∈ a.decls, _))

theorem Arena.Monomorphic.signature {a : Arena} (h : a.Monomorphic) (f : DeclId) : Signature.of? a f = none := by
  unfold Signature.of?
  dsimp only
  rw [List.flatMap_eq_nil_iff.2]
  · rfl
  · intro doc _
    split
    · next params hk =>
      obtain ⟨decl, hd, hkind⟩ := exists_decl_of_kind? hk
      have hg := h decl hd
      rw [hkind] at hg
      cases hg
    · rfl

theorem Env.Owns.plain {env : Env} {d : DeclId} {n : TypeNode} (h : env.Owns d n) : n.IsPlain := by
  cases h <;> trivial

theorem Env.Derives.plain {env : Env} {k : SlotKey} {n : TypeNode} (h : env.Derives k n) : n.IsPlain := by
  induction h with
  | own h => exact h.plain
  | feed _ _ ih | read _ _ _ _ _ _ ih | result _ _ _ _ _ _ _ ih | declared _ _ _ _ _ _ _ _ ih
  | delegate _ _ _ _ _ _ _ _ ih => exact ih

/-! ## Resolution keeps a session sound -/

/-- Slots hold what they may by `D`, and there is no substitution. -/
structure Session.Sound (D : SlotKey → TypeNode → Prop) (s : Session) : Prop where
  wellFormed : s.cache.WellFormed
  cache : s.cache.Sound D
  substitutions : s.substitutions = .empty

/-- Resolving a slot keeps a session sound. -/
def Compile.Sound (D : SlotKey → TypeNode → Prop) (compile : Compile) : Prop :=
  ∀ key s node s', s.Sound D → (compile key).run s = .ok (node, s') → s'.Sound D

namespace Session

variable {D : SlotKey → TypeNode → Prop} {s s' : Session} {key : SlotKey}

theorem sound_fresh : fresh.Sound D := ⟨NodeCache.wellFormed_empty, .empty, rfl⟩

namespace Sound

theorem hit (h : s.Sound D) (kind : String) (state : SlotState) : (s.hit key kind state).Sound D := by
  cases state <;> exact ⟨h.wellFormed, h.cache, h.substitutions⟩

theorem start (h : s.Sound D) (habs : s.cache.slot? key = none) (kind : String) : (s.start key kind).Sound D :=
  ⟨h.wellFormed.start habs, h.cache.start, h.substitutions⟩

theorem finish (h : s.Sound D) (query : Nat) : (s.finish query key).Sound D :=
  ⟨h.wellFormed.finish, h.cache.finish, h.substitutions⟩

/-- A slot may get a node that is right for it. -/
theorem own {n : TypeNode} (h : s.Sound D) (hn : n.isUnion = false) (hD : D key n) :
    (s.setNode key (some n)).Sound D := by
  have hh : ∀ m, some n = some m → s.cache.unions.Holds m := by
    intro m e
    cases e
    exact UnionArena.holds_of_not_union hn
  have hj : ∀ m, some n = some m → s.cache.Justified D key m := by
    intro m e
    cases e
    exact .of_flat hn hD
  exact ⟨h.wellFormed.setNode hh, h.cache.setNode hj, h.substitutions⟩

/-- The node that was found for a slot is one that the slot may hold. -/
theorem justified {node : Option TypeNode} (h : s'.Sound D) (hv : Visits key s node s') :
    ∀ n, node = some n → s'.cache.Justified D key n :=
  fun n hn => h.cache.node key n (hv.node.trans hn)

theorem members {node : Option TypeNode} (h : s'.Sound D) (hv : Visits key s node s') :
    ∀ n ∈ s'.cache.members node, D key n := by
  intro n hn
  rw [← hv.node] at hn
  exact h.cache.members hn

/-- A slot may take the node of another that may hold nothing else. -/
theorem merge {target : SlotKey} {node : Option TypeNode} (h : s'.Sound D) (hv : Visits key s node s')
    (hD : ∀ n, D key n → D target n) : (s'.setNode target node).Sound D :=
  ⟨hv.wellFormed.setNode hv.holds,
    h.cache.setNode fun n hn => (h.justified hv n hn).feed hD, h.substitutions⟩

end Sound

end Session

namespace Env

variable {D : SlotKey → TypeNode → Prop} {env : Env} {compile : Compile} {fuel : Nat} {target key : SlotKey}
  {s s' : Session} {u : Unit}

section Sound

variable (hv : compile.Visiting) (hc : compile.Sound D)
include hv hc

theorem mergeDecl_sound {d : DeclId} (hD : ∀ n, D (.decl d) n → D target n) (hs : s.Sound D)
    (h : (mergeDecl compile target d).run s = .ok (u, s')) : s'.Sound D := by
  obtain ⟨node, t, hd, h⟩ := Resolve.bind_ok h
  rw [Resolve.mergeNode_ok h]
  exact (hc _ _ _ _ hs hd).merge (hv _ _ _ _ hs.wellFormed hd) hD

theorem forM_mergeDecl_sound {ds : List DeclId} (hD : ∀ d ∈ ds, ∀ n, D (.decl d) n → D target n) (hs : s.Sound D)
    (h : (ds.forM (mergeDecl compile target)).run s = .ok (u, s')) : s'.Sound D :=
  Resolve.forM_ok (Session.Sound D) (fun d hd _ _ ht hm => mergeDecl_sound hv hc (hD d hd) ht hm) hs h

end Sound

section Derives

variable (hv : compile.Visiting) (hc : compile.Sound env.Derives)
include hv hc

theorem delegate_sound {metatable : DeclId} {name : Atom}
    (hD : ∀ m e n, env.Derives (.decl metatable) m → env.Finds name m e → env.Derives (.decl e) n →
      env.Derives target n) (hs : s.Sound env.Derives)
    (h : (runStep env compile fuel target (.delegate metatable name)).run s = .ok (u, s')) : s'.Sound env.Derives := by
  obtain ⟨node, t, hd, h⟩ := Resolve.bind_ok h
  have ht := hc _ _ _ _ hs hd
  have hj := ht.justified (hv _ _ _ _ hs.wellFormed hd)
  -- members may arrive while the loop runs, so what it keeps is that the metatable may hold its node
  refine (Resolve.foldMembers_ok (fun _ t => t.Sound env.Derives ∧
    ∀ n, node = some n → t.cache.Justified env.Derives (.decl metatable) n) ?_ ⟨ht, hj⟩ h).1
  rintro m _ t₁ _ t₂ hmem ⟨ht₁, hj₁⟩ hb
  have hm : env.Derives (.decl metatable) m := by
    cases node with
    | none => cases hmem
    | some n => exact ht₁.cache.flatten (hj₁ n rfl) hmem
  obtain ⟨found, t₃, hf, hmerge⟩ := Resolve.bind_ok hb
  obtain ⟨hfound, rfl⟩ := searchNode_plain hm.plain hf
  refine ⟨forM_mergeDecl_sound hv hc (fun e he n hn => ?_) ht₁ hmerge, fun n hn => ?_⟩
  · obtain ⟨m', hm', hfinds⟩ := searchPlain_finds hfound he
    cases List.mem_singleton.1 hm'
    exact hD m e n hm hfinds hn
  · exact (hj₁ n hn).grows (forM_mergeDecl_evolves hv hmerge ht₁.wellFormed).2.cache

theorem mergeResult_sound {callee call : DeclId} {index : Nat} {args : List DeclId} (hcall : env.Calls target call index)
    (hk : env.arena.kind? call = some (.call callee args)) (hd : env.isDelegator callee = false)
    (hs : s.Sound env.Derives) (h : (mergeResult env compile fuel target callee index call).run s = .ok (u, s')) :
    s'.Sound env.Derives := by
  obtain ⟨node, t, hn, h⟩ := mergeResult_ok h
  have ht := hc _ _ _ _ hs hn
  have hmembers := ht.members (hv _ _ _ _ hs.wellFormed hn)
  rcases h with ⟨-, rfl⟩ | ⟨f, _, _, _, returned, t', hm, hf, -, hr, h⟩ | ⟨f, _, _, position, e, hm, hf, rfl, hp, -, h⟩
  · exact ht
  · have ht' := hc _ _ _ _ ht hr
    rw [mergeReturned_of_empty ht'.substitutions h]
    exact ht'.merge (hv _ _ _ _ ht.wellFormed hr) fun n hn => .result hcall hk hd (hmembers _ hm) hf hn
  · exact mergeDecl_sound hv hc (fun n hn => .declared hcall hk hd (hmembers _ hm) hf hp hn) ht h

theorem runStep_sound (hmono : env.arena.Monomorphic) {step : Step} (hstep : step ∈ env.rule target)
    (hs : s.Sound env.Derives) (h : (runStep env compile fuel target step).run s = .ok (u, s')) :
    s'.Sound env.Derives := by
  have hex := explains_of_mem_rule hstep
  cases step with
  | own n =>
    obtain ⟨d, rfl, hown⟩ := hex
    rw [Resolve.mergeNode_ok h]
    exact hs.own hown.not_union (.own hown)
  | merge e => exact mergeDecl_sound hv hc (fun n hn => .feed hex hn) hs h
  | read base name =>
    obtain ⟨d, member, rfl, hk, hname⟩ := hex
    obtain ⟨found, t, hf, h⟩ := Resolve.bind_ok h
    have hbase : ∀ node t, (compile (.decl base)).run s = .ok (node, t) →
        ∀ n ∈ t.cache.members node, env.Derives (.decl base) n :=
      fun node t hb => (hc _ _ _ _ hs hb).members (hv _ _ _ _ hs.wellFormed hb)
    obtain ⟨node, hb, hfound⟩ := searchMember_plain (fun node t hb n hn => (hbase node t hb n hn).plain) hf
    refine forM_mergeDecl_sound hv hc (fun e he n hn => ?_) (hc _ _ _ _ hs hb) h
    obtain ⟨m, hm, hfinds⟩ := searchPlain_finds hfound he
    exact .read hk hname (hbase node t hb m hm) hfinds hn
  | delegate metatable name =>
    obtain ⟨c, callee, object, args, hcall, hk, hd, hname⟩ := hex
    exact delegate_sound hv hc (fun m e n hm hf hn => .delegate hcall hk hd hname hm hf hn) hs h
  | result callee index c =>
    obtain ⟨args, hcall, hk, hd⟩ := hex
    exact mergeResult_sound hv hc hcall hk hd hs h
  | template sub =>
    obtain ⟨f, index, sig, -, hsig⟩ := hex
    rw [hmono.signature] at hsig
    cases hsig

theorem runRule_sound (hmono : env.arena.Monomorphic) (hs : s.Sound env.Derives)
    (h : (runRule env compile fuel target).run s = .ok (u, s')) : s'.Sound env.Derives := by
  have hsteps : ∀ {u : Unit}, ((env.rule target).forM (runStep env compile fuel target)).run s = .ok (u, s') →
      s'.Sound env.Derives :=
    Resolve.forM_ok (Session.Sound env.Derives) (fun _ hstep _ _ ht hr => runStep_sound hv hc hmono hstep ht hr) hs
  cases target with
  | decl d => exact hsteps h
  | ret f index => exact hsteps h
  | generic i =>
    rcases runSubstitution_ok h with rfl | ⟨sub, _, _, _, _, _, hsub, -⟩
    · exact hs
    · simp [hs.substitutions, Substitutions.get?, Substitutions.empty] at hsub

end Derives

theorem compileSlot_sound (hmono : env.arena.Monomorphic) (fuel : Nat) :
    Compile.Sound env.Derives (env.compileSlot fuel) := by
  induction fuel with
  | zero => intro key s node s' _ h; cases h
  | succ fuel ih =>
    intro key s node s' hs h
    rcases compileSlot_ok h with ⟨slot, -, rfl, rfl⟩ | ⟨t, query, habs, hr, rfl, rfl⟩
    · exact hs.hit _ _
    · exact (runRule_sound (env.compileSlot_visits fuel) ih hmono (hs.start habs _) hr).finish _

end Env

/-- `local t = { k = 1 }; local r = (function() return t.k end)()` -/
def Env.sampleCall : Env :=
  .of (Program.empty.build [.integer 1, .table [("k", ⟨0⟩)], .localVar "t" (some ⟨2⟩), .getLocal ⟨3⟩,
    .getField ⟨4⟩ "k", .function [], .ret ⟨6⟩ [⟨5⟩], .call ⟨6⟩ [], .localVar "r" (some ⟨8⟩)]).2 {}

namespace Session

variable {env : Env} {s s' : Session} {qs : List Query} {answers : List Answer}

theorem askAll_sound (hmono : env.arena.Monomorphic) (hqs : ∀ q ∈ qs, q.isInquiry = true) (hs : s.Sound env.Derives)
    (h : s.askAll env qs = .ok (answers, s')) : s'.Sound env.Derives :=
  askAll_ok (Sound env.Derives) (fun q hq _ _ _ ht ha =>
    ask_ok (Sound env.Derives) (fun fuel key t node t' => Env.compileSlot_sound hmono fuel key t node t') (hqs q hq) ht ha) hs h

/-- In a program without type parameters, whatever is asked and in whatever order, each member of each
slot is one that the rules derive for it. -/
theorem askAll_derives (hmono : env.arena.Monomorphic) (hqs : ∀ q ∈ qs, q.isInquiry = true)
    (h : fresh.askAll env qs = .ok (answers, s)) :
    ∀ key, ∀ n ∈ s.cache.members (s.cache.node? key), env.Derives key n :=
  fun _ _ hn => (askAll_sound hmono hqs sound_fresh h).cache.members hn

/-- The local `r` gets the number through a call, a read and a table. -/
theorem askAll_derives_call : ∃ answers s, fresh.askAll .sampleCall [.decl ⟨9⟩] = .ok (answers, s) ∧
    s.cache.members (s.cache.node? (.decl ⟨9⟩)) = [.leaf ⟨9⟩, .leaf ⟨0⟩] ∧
    Env.sampleCall.Derives (.decl ⟨9⟩) (.leaf ⟨0⟩) := by
  obtain ⟨⟨answers, s⟩, hask, hmembers⟩ := Except.exists_ok (x := fresh.askAll .sampleCall [.decl ⟨9⟩])
    (f := fun r => r.2.cache.members (r.2.cache.node? (.decl ⟨9⟩))) (b := [.leaf ⟨9⟩, .leaf ⟨0⟩]) (by decide +kernel)
  have hderives := askAll_derives (by decide +kernel) (by decide) hask (.decl ⟨9⟩)
  exact ⟨answers, s, hask, hmembers, hderives (.leaf ⟨0⟩) (by rw [hmembers]; decide)⟩

end Session

end LuaInfer
