import LuaInfer.Proofs.Leftover
/-!
# What substitutions may contain

`Env.Flows` reads the steps of all rules as a relation between places and what may be there, with substitutions told apart by
what they are made from: the function, the type expression and the call. A substitution may contain what the arguments of its
call have, and what the alternatives of its type expression are by themselves. A search looks through substitutions, so what
it finds depends on what they may contain.

`Session.askAll_flows`: in any program, after any queries that merge nothing from outside, each member of each slot is one
that flows there. Slots share unions, so the argument is the one of `NodeCache.Sound`. The table of substitutions grows on the
way, and whether a slot may hold what the owner of its union may hold has to be known for all later tables.
-/

namespace LuaInfer

/-- Where nodes are: in a slot, in what a substitution stands for, or among all that a search of a declaration looks at. -/
inductive Place where
  | slot (key : SlotKey)
  | inst (sub : Substitution)
  | view (base : DeclId)

/-- What is at a place: a declaration or a global, or a substitution. -/
inductive Item where
  | node (n : TypeNode)
  | inst (sub : Substitution)

/-- Something may be at a place. -/
inductive Env.Flows (env : Env) : Place → Item → Prop
  | own {k n} : .own n ∈ env.rule k → Flows env (.slot k) (.node n)
  | merge {k d x} : .merge d ∈ env.rule k → Flows env (.slot (.decl d)) x → Flows env (.slot k) x
  | direct {d x} : Flows env (.slot (.decl d)) x → Flows env (.view d) x
  | through {d sub x} : Flows env (.view d) (.inst sub) → Flows env (.inst sub) x → Flows env (.view d) x
  | found {k base name m d x} : .read base name ∈ env.rule k ∨ .delegate base name ∈ env.rule k →
      Flows env (.view base) (.node m) → env.Finds name m d → Flows env (.slot (.decl d)) x → Flows env (.slot k) x
  | result {k callee index call f params returns isMethod x} : .result callee index call ∈ env.rule k →
      Flows env (.slot (.decl callee)) (.node (.leaf f)) → env.arena.kind? f = some (.function params returns isMethod) →
      Flows env (.slot (.ret f index)) x → Flows env (.slot k) x
  /-- A call makes a copy of a template. -/
  | copy {k callee index call f params returns isMethod g ty} : .result callee index call ∈ env.rule k →
      Flows env (.slot (.decl callee)) (.node (.leaf f)) → env.arena.kind? f = some (.function params returns isMethod) →
      Flows env (.slot (.ret f index)) (.inst ⟨g, ty, none⟩) → Flows env (.slot k) (.inst ⟨g, ty, some call⟩)
  | declared {k callee position call f params returns d x} : .result callee (position + 1) call ∈ env.rule k →
      Flows env (.slot (.decl callee)) (.node (.leaf f)) → env.arena.kind? f = some (.tyFunction params returns) →
      returns[position]? = some d → Flows env (.slot (.decl d)) x → Flows env (.slot k) x
  | template {k sub} : .template sub ∈ env.rule k → Flows env (.slot k) (.inst sub)
  /-- The nodes of an argument are taken for the type parameters that it tells. -/
  | argument {f ty call uses arg x} : (uses, arg) ∈ env.inferenceSources f call → Flows env (.slot (.decl arg)) x →
      Flows env (.inst ⟨f, ty, some call⟩) x
  | part {sub ty x} : env.arena.Alternative sub.proto ty → Flows env (.slot (.decl ty)) x → Flows env (.inst sub) x

/-! ## Nodes and slots of a session -/

namespace Substitutions

/-- What a node is, if it is no union and its substitution exists. -/
def item? (t : Substitutions) : TypeNode → Option Item
  | .generic i => (t.get? i).map .inst
  | .union _ => none
  | n => some (.node n)

/-- The place that a slot is, if its substitution exists. -/
def place? (t : Substitutions) : SlotKey → Option Place
  | .generic i => (t.get? i).map .inst
  | key => some (.slot key)

/-- Each substitution of `t` is in `t'`. -/
def Extends (t t' : Substitutions) : Prop := ∀ i sub, t.get? i = some sub → t'.get? i = some sub

variable {t t' t'' : Substitutions} {n : TypeNode} {key : SlotKey} {x : Item} {P : Place}

theorem Extends.refl (t : Substitutions) : t.Extends t := fun _ _ h => h

theorem Extends.trans (h : t.Extends t') (h' : t'.Extends t'') : t.Extends t'' := fun i sub hi => h' i sub (h i sub hi)

theorem extends_push (t : Substitutions) (sub : Substitution) : t.Extends (t.push sub).2 := fun _ _ h => get?_push h

theorem Extends.item? (h : t.Extends t') (hn : t.item? n = some x) : t'.item? n = some x := by
  cases n with
  | generic i =>
    obtain ⟨sub, hi, rfl⟩ := Option.map_eq_some_iff.1 hn
    exact Option.map_eq_some_iff.2 ⟨sub, h i sub hi, rfl⟩
  | _ => exact hn

theorem Extends.place? (h : t.Extends t') (hk : t.place? key = some P) : t'.place? key = some P := by
  cases key with
  | generic i =>
    obtain ⟨sub, hi, rfl⟩ := Option.map_eq_some_iff.1 hk
    exact Option.map_eq_some_iff.2 ⟨sub, h i sub hi, rfl⟩
  | _ => exact hk

theorem item?_of_plain (hn : n.IsPlain) : t.item? n = some (.node n) := by
  cases n with
  | leaf d => rfl
  | global g => rfl
  | generic i => cases hn
  | union u => cases hn

theorem not_union_of_item? (hn : t.item? n = some x) : n.isUnion = false := by
  cases n with
  | union u => cases hn
  | _ => rfl

end Substitutions

/-- By the relation, slot `key` may hold the node, where substitutions are those of `t`. -/
def Env.May (env : Env) (t : Substitutions) (key : SlotKey) (n : TypeNode) : Prop :=
  ∃ P x, t.place? key = some P ∧ t.item? n = some x ∧ env.Flows P x

namespace Env

variable {env : Env} {t t' : Substitutions} {key k : SlotKey} {n : TypeNode} {x : Item} {P Q : Place}

theorem May.intro (hk : t.place? key = some P) (hn : t.item? n = some x) (h : env.Flows P x) : env.May t key n :=
  ⟨P, x, hk, hn, h⟩

theorem May.flows (h : env.May t key n) (hk : t.place? key = some P) : ∃ x, t.item? n = some x ∧ env.Flows P x := by
  obtain ⟨Q, x, hQ, hn, hflows⟩ := h
  rw [hk] at hQ
  cases hQ
  exact ⟨x, hn, hflows⟩

/-- A slot may hold what another may hold if everything flows on. -/
theorem May.feed (h : env.May t key n) (hkey : t.place? key = some P) (hk : t.place? k = some Q)
    (hD : ∀ x, env.Flows P x → env.Flows Q x) : env.May t k n := by
  obtain ⟨x, hn, hflows⟩ := h.flows hkey
  exact .intro hk hn (hD x hflows)

end Env

/-! ## Sessions in which members are where they flow -/

/-- Slots hold what flows there, also when more substitutions are made. -/
structure Session.Flowing (env : Env) (s : Session) : Prop where
  wellFormed : s.cache.WellFormed
  cache : ∀ t, s.substitutions.Extends t → s.cache.Sound (env.May t)

/-- The slot may hold the node, also when more substitutions are made. -/
def Session.Gives (env : Env) (s : Session) (key : SlotKey) (node : Option TypeNode) : Prop :=
  ∀ t, s.substitutions.Extends t → ∀ n, node = some n → s.cache.Justified (env.May t) key n

/-- Resolving a slot keeps members where they flow. -/
def Compile.Flowing (env : Env) (compile : Compile) : Prop :=
  ∀ key s node s', s.Flowing env → (compile key).run s = .ok (node, s') → s'.Flowing env

namespace Session

variable {env : Env} {s s' : Session} {key target : SlotKey} {node : Option TypeNode} {n : TypeNode} {x : Item} {P Q : Place}
  {T : Set SlotKey}

theorem Grows.extends (h : s.Grows T s') : s.substitutions.Extends s'.substitutions := h.substitution

theorem flowing_fresh : fresh.Flowing env := ⟨NodeCache.wellFormed_empty, fun _ _ => .empty⟩

namespace Flowing

theorem congr (h : s.Flowing env) (hcache : s'.cache = s.cache) (hsubs : s'.substitutions = s.substitutions) :
    s'.Flowing env :=
  ⟨hcache ▸ h.wellFormed, by rw [hcache, hsubs]; exact h.cache⟩

theorem hit (h : s.Flowing env) (kind : String) (state : SlotState) : (s.hit key kind state).Flowing env :=
  h.congr (cache_hit ..).1 (by cases state <;> rfl)

theorem start (h : s.Flowing env) (habs : s.cache.slot? key = none) (kind : String) : (s.start key kind).Flowing env :=
  ⟨h.wellFormed.start habs, fun t ht => (h.cache t ht).start⟩

theorem finish (h : s.Flowing env) (query : Nat) : (s.finish query key).Flowing env :=
  ⟨h.wellFormed.finish, fun t ht => (h.cache t ht).finish⟩

theorem withSubstitution (h : s.Flowing env) (sub : Substitution) : (s.withSubstitution sub).Flowing env :=
  ⟨h.wellFormed, fun t ht => h.cache t ((Substitutions.extends_push _ sub).trans ht)⟩

theorem setNode (h : s.Flowing env) (hnode : s.Gives env target node)
    (hholds : ∀ n, node = some n → s.cache.unions.Holds n) : (s.setNode target node).Flowing env :=
  ⟨h.wellFormed.setNode hholds, fun t ht => (h.cache t ht).setNode (hnode t ht)⟩

/-- A slot may get what flows there. -/
theorem flat (h : s.Flowing env) (htarget : s.substitutions.place? target = some P) (hn : s.substitutions.item? n = some x)
    (hflows : env.Flows P x) : (s.setNode target (some n)).Flowing env := by
  have hflat := Substitutions.not_union_of_item? hn
  refine h.setNode (fun t ht m hm => ?_) (UnionArena.holds_some hflat)
  cases hm
  exact .of_flat hflat (.intro (ht.place? htarget) (ht.item? hn) hflows)

/-- The node that was found for a slot is one that the slot may hold. -/
theorem gives (h : s'.Flowing env) (hv : Visits key s node s') : s'.Gives env key node :=
  fun t ht n hn => (h.cache t ht).node key n (hv.node.trans hn)

/-- Members of what a slot may hold. -/
theorem members (h : s.Flowing env) (hnode : s.Gives env key node) (hn : n ∈ s.cache.members node) :
    env.May s.substitutions key n := by
  cases node with
  | none => cases hn
  | some m => exact (h.cache _ (.refl _)).flatten (hnode _ (.refl _) m rfl) hn

end Flowing

theorem Gives.grows (h : s.Gives env key node) (hg : s.Grows T s') : s'.Gives env key node :=
  fun t ht n hn => (h t (hg.extends.trans ht) n hn).grows hg.cache

/-- What a slot may hold, another may hold if everything flows on. -/
theorem Gives.feed (h : s.Gives env key node) (hkey : s.substitutions.place? key = some P)
    (htarget : s.substitutions.place? target = some Q) (hD : ∀ x, env.Flows P x → env.Flows Q x) :
    s.Gives env target node :=
  fun t ht n hn => (h t ht n hn).feed fun _ hm => hm.feed (ht.place? hkey) (ht.place? htarget) hD

/-- What is found for type parameters flows to the substitution. -/
def Supplies (env : Env) (s : Session) (sub : Substitution) (bindings : Bindings) : Prop :=
  ∀ entry ∈ bindings, ∀ n ∈ entry.2, ∃ x, s.substitutions.item? n = some x ∧ env.Flows (.inst sub) x

namespace Supplies

variable {sub : Substitution} {bindings : Bindings}

theorem flat (h : s.Supplies env sub bindings) : ∀ entry ∈ bindings, ∀ n ∈ entry.2, n.isUnion = false := by
  intro entry hentry n hn
  obtain ⟨x, hx, -⟩ := h entry hentry n hn
  exact Substitutions.not_union_of_item? hx

theorem grows (h : s.Supplies env sub bindings) (hg : s.Grows T s') : s'.Supplies env sub bindings := by
  intro entry hentry n hn
  obtain ⟨x, hx, hflows⟩ := h entry hentry n hn
  exact ⟨x, hg.extends.item? hx, hflows⟩

/-- The substitution may get what is found for a type parameter. -/
theorem setNode {param : Atom} (h : s.Supplies env sub bindings) (hn : n ∈ bindings.of param)
    (htarget : s.substitutions.place? target = some (.inst sub)) (hs : s.Flowing env) :
    (s.setNode target (some n)).Flowing env ∧ s.Grows {target} (s.setNode target (some n)) := by
  obtain ⟨entry, hentry, hn⟩ := Bindings.exists_of_mem_of hn
  obtain ⟨x, hx, hflows⟩ := h entry hentry n hn
  have hset : s.Evolves {target} (s.setNode target (some n)) := .setNode_flat (Substitutions.not_union_of_item? hx)
  exact ⟨hs.flat htarget hx hflows, (hset hs.wellFormed).2⟩

end Supplies

end Session

namespace Env

variable {env : Env} {compile : Compile} {fuel : Nat} {target key : SlotKey} {s s' : Session} {u : Unit} {P : Place}
  {name : Atom} {n : TypeNode} {h h' : Hunt}

section Steps

variable (hv : compile.Visiting) (hc : compile.Flowing env)
include hv hc

/-! ## Searches -/

/-- What is found on a node is found on something that is in view: the node is, and so is what the substitutions in view may
contain. -/
theorem huntNode_flows (V : Item → Prop) (hthrough : ∀ sub x, V (.inst sub) → env.Flows (.inst sub) x → V x)
    (hn : ∃ x, s.substitutions.item? n = some x ∧ V x) (hs : s.Flowing env)
    (hr : (env.huntNode compile name fuel h n).run s = .ok (h', s')) :
    s'.Flowing env ∧ ∀ e ∈ h'.found, e ∈ h.found ∨ ∃ m, V (.node m) ∧ env.Finds name m e := by
  induction fuel generalizing h h' n s s' with
  | zero => cases hr
  | succ fuel ih =>
    obtain ⟨x, hx, hV⟩ := hn
    cases n with
    | leaf d =>
      obtain ⟨rfl, rfl⟩ := Resolve.pure_ok hr
      cases hx
      exact ⟨hs, fun e he => (Hunt.mem_add.1 he).imp_right fun he => ⟨_, hV, finds_of_mem_leafFields he⟩⟩
    | global g =>
      obtain ⟨hg, rfl⟩ := Resolve.lift_ok hr
      cases hx
      exact ⟨hs, fun e he => (huntGlobal_finds (huntClassFrom_honest _) hg he).imp_right fun he => ⟨_, hV, he⟩⟩
    | union u => cases hx
    | generic i =>
      obtain ⟨sub, hi, rfl⟩ := Option.map_eq_some_iff.1 hx
      obtain ⟨node, t, hd, hr⟩ := Resolve.bind_ok hr
      have ht := hc _ _ _ _ hs hd
      have hvis := hv _ _ _ _ hs.wellFormed hd
      -- the substitution keeps its node while the loop runs, and what arrives in it flows there
      have hloop := Resolve.foldMembers_ok (fun (a : Hunt) t => (t.Flowing env ∧ t.Gives env (.generic i) node ∧
        t.substitutions.get? i = some sub) ∧ ∀ e ∈ a.found, e ∈ h.found ∨ ∃ m, V (.node m) ∧ env.Finds name m e) ?_
        ⟨⟨ht, ht.gives hvis, hvis.grows.substitution i sub hi⟩, fun e he => .inl he⟩ hr
      · exact ⟨hloop.1.1, hloop.2⟩
      · rintro m a t₁ a' t₂ hm ⟨⟨ht₁, hgives, hsub⟩, ha⟩ hh
        have hplace : t₁.substitutions.place? (.generic i) = some (.inst sub) := Option.map_eq_some_iff.2 ⟨sub, hsub, rfl⟩
        obtain ⟨x, hx, hflows⟩ := (ht₁.members hgives hm).flows hplace
        obtain ⟨ht₂, ha'⟩ := ih ⟨x, hx, hthrough sub x hV hflows⟩ ht₁ hh
        have hg := (huntNode_evolves hv hh ht₁.wellFormed).2
        exact ⟨⟨ht₂, hgives.grows hg, hg.substitution i sub hsub⟩, fun e he => (ha' e he).elim (ha e) .inr⟩

/-- The search of a member of a declaration. -/
theorem searchNode_flows {base : DeclId} {found : List DeclId} (hn : env.May s.substitutions (.decl base) n)
    (hs : s.Flowing env) (hr : (env.searchNode compile fuel n name).run s = .ok (found, s')) :
    s'.Flowing env ∧ ∀ e ∈ found, ∃ m, env.Flows (.view base) (.node m) ∧ env.Finds name m e := by
  obtain ⟨hunt, t, hh, hr⟩ := Resolve.bind_ok hr
  obtain ⟨hclose, rfl⟩ := Resolve.lift_ok hr
  obtain ⟨x, hx, hflows⟩ := hn.flows rfl
  obtain ⟨ht, hfound⟩ := huntNode_flows hv hc (env.Flows (.view base)) (fun _ _ => .through) ⟨x, hx, .direct hflows⟩ hs hh
  refine ⟨ht, fun e he => ?_⟩
  rw [Hunt.close_ok hclose] at he
  exact (hfound e he).resolve_left (by simp [Env.hunt])

/-- The search of a declaration. -/
theorem searchMember_flows {base : DeclId} {found : List DeclId} (hs : s.Flowing env)
    (hr : (env.searchMember compile fuel base name).run s = .ok (found, s')) :
    s'.Flowing env ∧ ∀ e ∈ found, ∃ m, env.Flows (.view base) (.node m) ∧ env.Finds name m e := by
  obtain ⟨hunt, t, hh, hr⟩ := Resolve.bind_ok hr
  obtain ⟨hclose, rfl⟩ := Resolve.lift_ok hr
  obtain ⟨node, t₀, hd, hh⟩ := Resolve.bind_ok hh
  have ht₀ := hc _ _ _ _ hs hd
  have hloop := Resolve.foldMembers_ok (fun (a : Hunt) t => (t.Flowing env ∧ t.Gives env (.decl base) node) ∧
    ∀ e ∈ a.found, ∃ m, env.Flows (.view base) (.node m) ∧ env.Finds name m e) ?_
    ⟨⟨ht₀, ht₀.gives (hv _ _ _ _ hs.wellFormed hd)⟩, fun e he => by cases he⟩ hh
  · rw [Hunt.close_ok hclose]
    exact ⟨hloop.1.1, hloop.2⟩
  · rintro m a t₁ a' t₂ hm ⟨⟨ht₁, hgives⟩, ha⟩ hh
    obtain ⟨x, hx, hflows⟩ := (ht₁.members hgives hm).flows rfl
    obtain ⟨ht₂, ha'⟩ := huntNode_flows hv hc (env.Flows (.view base)) (fun _ _ => .through) ⟨x, hx, .direct hflows⟩ ht₁ hh
    exact ⟨⟨ht₂, hgives.grows (huntNode_evolves hv hh ht₁.wellFormed).2⟩, fun e he => (ha' e he).elim (ha e) id⟩

/-! ## Merges -/

theorem mergeDecl_flows {d : DeclId} (htarget : s.substitutions.place? target = some P)
    (hD : ∀ x, env.Flows (.slot (.decl d)) x → env.Flows P x) (hs : s.Flowing env)
    (hr : (mergeDecl compile target d).run s = .ok (u, s')) : s'.Flowing env := by
  obtain ⟨node, t, hd, hr⟩ := Resolve.bind_ok hr
  rw [Resolve.mergeNode_ok hr]
  have hvis := hv _ _ _ _ hs.wellFormed hd
  have ht := hc _ _ _ _ hs hd
  exact ht.setNode ((ht.gives hvis).feed rfl (hvis.grows.extends.place? htarget) hD) hvis.holds

theorem forM_mergeDecl_flows {ds : List DeclId} (htarget : s.substitutions.place? target = some P)
    (hD : ∀ d ∈ ds, ∀ x, env.Flows (.slot (.decl d)) x → env.Flows P x) (hs : s.Flowing env)
    (hr : (ds.forM (mergeDecl compile target)).run s = .ok (u, s')) : s'.Flowing env := by
  refine (Resolve.forM_ok (fun t => t.Flowing env ∧ t.substitutions.place? target = some P) ?_ ⟨hs, htarget⟩ hr).1
  rintro d hd t t' ⟨ht, hplace⟩ hm
  exact ⟨mergeDecl_flows hv hc hplace (hD d hd) ht hm, (mergeDecl_evolves hv hm ht.wellFormed).2.extends.place? hplace⟩

theorem delegate_flows {metatable : DeclId} (htarget : s.substitutions.place? target = some P)
    (hD : ∀ m e x, env.Flows (.view metatable) (.node m) → env.Finds name m e → env.Flows (.slot (.decl e)) x → env.Flows P x)
    (hs : s.Flowing env) (hr : (runStep env compile fuel target (.delegate metatable name)).run s = .ok (u, s')) :
    s'.Flowing env := by
  obtain ⟨node, t, hd, hr⟩ := Resolve.bind_ok hr
  have hvis := hv _ _ _ _ hs.wellFormed hd
  have ht := hc _ _ _ _ hs hd
  refine (Resolve.foldMembers_ok (fun _ t => t.Flowing env ∧ t.Gives env (.decl metatable) node ∧
    t.substitutions.place? target = some P) ?_ ⟨ht, ht.gives hvis, hvis.grows.extends.place? htarget⟩ hr).1
  rintro m _ t₁ _ t₂ hm ⟨ht₁, hgives, hplace⟩ hb
  obtain ⟨found, t₃, hf, hmerge⟩ := Resolve.bind_ok hb
  obtain ⟨ht₃, hfound⟩ := searchNode_flows hv hc (ht₁.members hgives hm) ht₁ hf
  have hg₃ := (searchNode_evolves hv hf ht₁.wellFormed).2
  have hg := (forM_mergeDecl_evolves hv hmerge ht₃.wellFormed).2
  refine ⟨forM_mergeDecl_flows hv hc (hg₃.extends.place? hplace) (fun e he x hx => ?_) ht₃ hmerge,
    (hgives.grows hg₃).grows hg, (hg₃.extends.trans hg.extends).place? hplace⟩
  obtain ⟨m', hm', hfinds⟩ := hfound e he
  exact hD m' e x hm' hfinds hx

omit hv hc in
/-- A member of a result is taken as it is, or copied if it is a template. -/
theorem mergeBound_flows {call f : DeclId} {index : Nat} (htarget : s.substitutions.place? target = some P)
    (hD : ∀ x, env.Flows (.slot (.ret f index)) x → env.Flows P x)
    (hcopy : ∀ g ty, env.Flows (.slot (.ret f index)) (.inst ⟨g, ty, none⟩) → env.Flows P (.inst ⟨g, ty, some call⟩))
    (hn : env.May s.substitutions (.ret f index) n) (hs : s.Flowing env)
    (hr : (mergeBound target call n).run s = .ok (u, s')) : s'.Flowing env := by
  obtain ⟨x, hx, hflows⟩ := hn.flows rfl
  rcases mergeBound_ok hr with ⟨-, rfl⟩ | ⟨i, g, ty, rfl, hi, rfl⟩
  · exact hs.flat htarget hx (hD x hflows)
  · obtain ⟨sub, hsub, rfl⟩ := Option.map_eq_some_iff.1 hx
    rw [hi] at hsub
    cases hsub
    refine (hs.withSubstitution ⟨g, ty, some call⟩).flat ((Substitutions.extends_push _ _).place? htarget) ?_
      (hcopy g ty hflows)
    exact Option.map_eq_some_iff.2 ⟨_, Substitutions.get?_push_self _ _, rfl⟩

omit hv hc in
theorem mergeReturned_flows {call f : DeclId} {index : Nat} {returned : Option TypeNode}
    (htarget : s.substitutions.place? target = some P) (hD : ∀ x, env.Flows (.slot (.ret f index)) x → env.Flows P x)
    (hcopy : ∀ g ty, env.Flows (.slot (.ret f index)) (.inst ⟨g, ty, none⟩) → env.Flows P (.inst ⟨g, ty, some call⟩))
    (hgives : s.Gives env (.ret f index) returned) (hholds : ∀ n, returned = some n → s.cache.unions.Holds n)
    (hs : s.Flowing env) (hr : (mergeReturned fuel target call returned).run s = .ok (u, s')) : s'.Flowing env := by
  obtain ⟨_, _, hg, hr⟩ := Resolve.bind_ok hr
  cases hg
  split at hr
  · refine (Resolve.foldMembers_ok (fun _ t => t.Flowing env ∧ t.Gives env (.ret f index) returned ∧
      t.substitutions.place? target = some P) ?_ ⟨hs, hgives, htarget⟩ hr).1
    rintro m _ t _ t' hm ⟨ht, hgives, hplace⟩ hb
    have hg := (mergeBound_evolves (ht.wellFormed.members_flat m hm) hb ht.wellFormed).2
    exact ⟨mergeBound_flows hplace hD hcopy (ht.members hgives hm) ht hb, hgives.grows hg, hg.extends.place? hplace⟩
  · rw [Resolve.mergeNode_ok hr]
    exact hs.setNode (hgives.feed rfl htarget hD) hholds

theorem mergeResult_flows {callee call : DeclId} {index : Nat} (hstep : .result callee index call ∈ env.rule key)
    (htarget : s.substitutions.place? target = some (.slot key)) (hs : s.Flowing env)
    (hr : (mergeResult env compile fuel target callee index call).run s = .ok (u, s')) : s'.Flowing env := by
  obtain ⟨node, t, hd, hr⟩ := mergeResult_ok hr
  have hvis := hv _ _ _ _ hs.wellFormed hd
  have ht := hc _ _ _ _ hs hd
  have hplace := hvis.grows.extends.place? htarget
  have hcallee : ∀ f, .leaf f ∈ t.cache.members node → env.Flows (.slot (.decl callee)) (.node (.leaf f)) := by
    intro f hm
    obtain ⟨x, hx, hflows⟩ := (ht.members (ht.gives hvis) hm).flows rfl
    cases hx
    exact hflows
  rcases hr with ⟨-, rfl⟩ | ⟨f, _, _, _, returned, t', hm, hf, -, hret, hr⟩ | ⟨f, _, _, position, e, hm, hf, rfl, hp, -, hr⟩
  · exact ht
  · have hvis' := hv _ _ _ _ ht.wellFormed hret
    have ht' := hc _ _ _ _ ht hret
    exact mergeReturned_flows (hvis'.grows.extends.place? hplace) (fun x hx => .result hstep (hcallee f hm) hf hx)
      (fun g ty hx => .copy hstep (hcallee f hm) hf hx) (ht'.gives hvis') hvis'.holds ht' hr
  · exact mergeDecl_flows hv hc hplace (fun x hx => .declared hstep (hcallee f hm) hf hp hx) ht hr

theorem runStep_flows {st : Step} (hstep : st ∈ env.rule key) (htarget : s.substitutions.place? target = some (.slot key))
    (hs : s.Flowing env) (hr : (runStep env compile fuel target st).run s = .ok (u, s')) : s'.Flowing env := by
  cases st with
  | own n =>
    rw [Resolve.mergeNode_ok hr]
    obtain ⟨d, -, hown⟩ := explains_of_mem_rule hstep
    exact hs.flat htarget (Substitutions.item?_of_plain hown.plain) (.own hstep)
  | merge d => exact mergeDecl_flows hv hc htarget (fun x hx => .merge hstep hx) hs hr
  | read base name =>
    obtain ⟨found, t, hf, hr⟩ := Resolve.bind_ok hr
    obtain ⟨ht, hfound⟩ := searchMember_flows hv hc hs hf
    have hg := (searchMember_evolves hv hf hs.wellFormed).2
    refine forM_mergeDecl_flows hv hc (hg.extends.place? htarget) (fun e he x hx => ?_) ht hr
    obtain ⟨m, hm, hfinds⟩ := hfound e he
    exact .found (.inl hstep) hm hfinds hx
  | delegate metatable name =>
    exact delegate_flows hv hc htarget (fun m e x hm hfinds hx => .found (.inr hstep) hm hfinds hx) hs hr
  | result callee index call => exact mergeResult_flows hv hc hstep htarget hs hr
  | template sub =>
    obtain ⟨i, t, ha, hr⟩ := Resolve.bind_ok hr
    cases ha
    rw [Resolve.mergeNode_ok hr]
    refine (hs.withSubstitution sub).flat ((Substitutions.extends_push _ _).place? htarget) ?_ (.template hstep)
    exact Option.map_eq_some_iff.2 ⟨_, Substitutions.get?_push_self _ _, rfl⟩

theorem steps_flow {steps : List Step} (hsteps : ∀ st ∈ steps, st ∈ env.rule key)
    (htarget : s.substitutions.place? target = some (.slot key)) (hs : s.Flowing env)
    (hr : (steps.forM (runStep env compile fuel target)).run s = .ok (u, s')) : s'.Flowing env := by
  refine (Resolve.forM_ok (fun t => t.Flowing env ∧ t.substitutions.place? target = some (.slot key)) ?_ ⟨hs, htarget⟩ hr).1
  rintro st hst t t' ⟨ht, hplace⟩ hstep
  exact ⟨runStep_flows hv hc (hsteps st hst) hplace ht hstep,
    (runStep_evolves hv (hsteps st hst) hstep ht.wellFormed).2.extends.place? hplace⟩

/-! ## Substitutions -/

/-- Types are found for type parameters in the nodes of arguments. -/
theorem inferBindings_flows {f ty call : DeclId} {bindings : Bindings} (hs : s.Flowing env)
    (hr : (inferBindings env compile f call).run s = .ok (bindings, s')) :
    s'.Flowing env ∧ s'.Supplies env ⟨f, ty, some call⟩ bindings := by
  obtain ⟨entries, t, hm, hr⟩ := Resolve.bind_ok hr
  obtain ⟨rfl, rfl⟩ := Resolve.pure_ok hr
  have hkeep := Resolve.mapM_ok (fun t => t.Flowing env) (fun t entry => t.Supplies env ⟨f, ty, some call⟩ entry) ?_ hs hm
  · refine ⟨hkeep.1, fun entry hentry => ?_⟩
    obtain ⟨l, hl, hentry⟩ := List.mem_flatten.1 hentry
    exact hkeep.2.1 l hl entry hentry
  · rintro ⟨uses, arg⟩ harg t₁ entry t₂ ht₁ hr
    obtain ⟨node, t₃, hd, hr⟩ := Resolve.bind_ok hr
    obtain ⟨_, _, hg, hr⟩ := Resolve.bind_ok hr
    cases hg
    obtain ⟨rfl, rfl⟩ := Resolve.pure_ok hr
    have hvis := hv _ _ _ _ ht₁.wellFormed hd
    have ht₃ := hc _ _ _ _ ht₁ hd
    refine ⟨ht₃, fun binding hb n hn => ?_, fun c hc => hc.grows hvis.grows⟩
    obtain ⟨param, -, rfl⟩ := List.mem_map.1 hb
    obtain ⟨x, hx, hflows⟩ := (ht₃.members (ht₃.gives hvis) hn).flows rfl
    exact ⟨x, hx, .argument harg hflows⟩

theorem instantiate_flows {sub : Substitution} {sig? : Option Signature} {bindings : Bindings} {depth : Nat} {ty : DeclId}
    (htarget : s.substitutions.place? target = some (.inst sub)) (hty : env.arena.Alternative sub.proto ty)
    (hbindings : s.Supplies env sub bindings) (hs : s.Flowing env)
    (hr : (instantiate env compile target sig? bindings depth ty).run s = .ok (u, s')) :
    s'.Flowing env := by
  induction depth generalizing ty s s' with
  | zero => cases hr
  | succ depth ih =>
    rw [instantiate] at hr
    split at hr
    · rw [(Resolve.pure_ok hr).2]
      exact hs
    · next kind hk =>
      split at hr
      · -- a type parameter: what is found for it
        refine (Resolve.forM_ok (fun t => t.Flowing env ∧ s.Grows {target} t) (fun n hn t t' ht hm => ?_)
          ⟨hs, .refl _ _⟩ hr).1
        rw [Resolve.mergeNode_ok hm]
        obtain ⟨ht', hg'⟩ := (hbindings.grows ht.2).setNode hn (ht.2.extends.place? htarget) ht.1
        exact ⟨ht', ht.2.trans hg'⟩
      · split at hr
        · -- a union: each of its alternatives
          refine (Resolve.forM_ok (fun t => t.Flowing env ∧ s.Grows {target} t) (fun e he t t' ht hm => ?_)
            ⟨hs, .refl _ _⟩ hr).1
          exact ⟨ih (ht.2.extends.place? htarget) (hty.step hk he) (hbindings.grows ht.2) ht.1 hm,
            ht.2.trans (instantiate_evolves hv hbindings.flat hm ht.1.wellFormed).2⟩
        · exact mergeDecl_flows hv hc htarget (fun x hx => .part hty hx) hs hr

theorem runSubstitution_flows {i : GenericId} (hs : s.Flowing env)
    (hr : (runSubstitution env compile (.generic i) i).run s = .ok (u, s')) : s'.Flowing env := by
  rcases runSubstitution_ok hr with rfl | ⟨sub, depth, bindings, t, t', left, hsub, -, hb, hi, -, rfl⟩
  · exact hs
  · have hentered : Session.Flowing env { s with depth } := hs.congr rfl rfl
    have hplace : ∀ {t : Session}, t.substitutions.get? i = some sub →
        t.substitutions.place? (.generic i) = some (.inst sub) :=
      fun h => Option.map_eq_some_iff.2 ⟨sub, h, rfl⟩
    refine Session.Flowing.congr (s := t') ?_ rfl rfl
    rcases sub with ⟨f, ty, _ | call⟩
    · obtain ⟨rfl, rfl⟩ := Resolve.pure_ok hb
      exact instantiate_flows hv hc (hplace (t := { s with depth }) hsub) .refl (by simp [Session.Supplies]) hentered hi
    · obtain ⟨ht, hbindings⟩ := inferBindings_flows hv hc hentered hb
      have hg := ((inferBindings_evolves hv hentered.wellFormed hb).1 hentered.wellFormed).2
      exact instantiate_flows hv hc (hplace (hg.substitution i _ hsub)) .refl hbindings ht hi

theorem runRule_flows (hs : s.Flowing env) (hr : (runRule env compile fuel target).run s = .ok (u, s')) :
    s'.Flowing env := by
  cases target with
  | decl d => exact steps_flow hv hc (fun _ hst => show _ ∈ env.rule (.decl d) from hst) rfl hs hr
  | ret f index => exact steps_flow hv hc (fun _ hst => show _ ∈ env.rule (.ret f index) from hst) rfl hs hr
  | generic i => exact runSubstitution_flows hv hc hs hr

end Steps

theorem compileSlot_flows (env : Env) (fuel : Nat) : Compile.Flowing env (env.compileSlot fuel) := by
  induction fuel with
  | zero => intro key s node s' _ h; cases h
  | succ fuel ih =>
    intro key s node s' hs h
    rcases compileSlot_ok h with ⟨slot, -, rfl, rfl⟩ | ⟨t, query, habs, hr, rfl, rfl⟩
    · exact hs.hit _ _
    · exact (runRule_flows (env.compileSlot_visits fuel) ih (hs.start habs _) hr).finish _

end Env

namespace Session

variable {env : Env} {s s' : Session} {q : Query} {a : Answer} {qs : List Query} {answers : List Answer}

theorem ask_flows (hq : q.merges = false) (hs : s.Flowing env) (h : s.ask env q = .ok (a, s')) : s'.Flowing env := by
  by_cases hinquiry : q.isInquiry = true
  · exact ask_ok (Flowing env) (fun fuel key t node t' => env.compileSlot_flows fuel key t node t') hinquiry hs h
  · cases q with
    | clear =>
      cases h
      exact flowing_fresh.congr rfl rfl
    | setNode key node => cases hq
    | _ => exact absurd rfl hinquiry

theorem askAll_flowing (hqs : ∀ q ∈ qs, q.merges = false) (h : fresh.askAll env qs = .ok (answers, s)) : s.Flowing env :=
  askAll_ok (Flowing env) (fun q hq _ _ _ ht ha => ask_flows (hqs q hq) ht ha) flowing_fresh h

/-- Whatever is asked and in whatever order, each member of each slot is one that flows there. -/
theorem askAll_flows (hqs : ∀ q ∈ qs, q.merges = false) (h : fresh.askAll env qs = .ok (answers, s)) :
    ∀ key, ∀ n ∈ s.cache.members (s.cache.node? key), env.May s.substitutions key n :=
  fun _ _ hn => ((askAll_flowing hqs h).cache _ (.refl _)).members hn

end Session

end LuaInfer
