import LuaInfer.Proofs.Apart
import LuaInfer.Proofs.Regime
import LuaInfer.Proofs.Walk
/-!
# What instantiation leaves

A result type that mentions a type parameter anywhere is kept as a template. But instantiation replaces type parameters only
where they are the type or an alternative of it. What is below an array, a table or a function type is taken as it is, so a
type parameter can be left in the result (`Session.compileGeneric_leaves_param`). There is no other way:
`Session.leaf_mentions_of_compileGeneric` says where a member that mentions a type parameter comes from. It holds for every
session, also where look-ups met slots under way, so it is judged by the last session `F`, as templates are.
-/

namespace LuaInfer

/-! ## Parts of types -/

namespace Arena

variable {a : Arena} {ty e : DeclId}

/-- `alt` is `ty` or one of its alternatives, at any depth of alternatives. -/
inductive Alternative (a : Arena) (ty : DeclId) : DeclId → Prop
  | refl : Alternative a ty ty
  | step {x alt : DeclId} {alternatives : List DeclId} : Alternative a ty x →
      a.kind? x = some (.tyUnion alternatives) → alt ∈ alternatives → Alternative a ty alt

theorem Alternative.within {alt : DeclId} (h : a.Alternative ty alt) : a.Within ty alt := by
  induction h with
  | refl => exact .refl
  | step _ hk hmem ih => exact ih.tail (by rw [children, hk]; exact hmem)

end Arena

/-- A type expression that mentions a type parameter has it at or below itself. -/
theorem Signature.exists_param_of_references {sig : Signature} {a : Arena} {ty : DeclId} (h : sig.references a ty = true) :
    ∃ e kind, a.Within ty e ∧ a.kind? e = some kind ∧ sig.paramUse? kind ≠ none := by
  obtain ⟨e, kind, he, hk, huse⟩ := Arena.exists_within_of_anyBelow h
  exact ⟨e, kind, he, hk, Option.isSome_iff_ne_none.1 huse⟩

/-- Type expressions with other type expressions below them, except for unions. -/
def DeclKind.isComposite : DeclKind → Bool
  | tyTable .. | tyField .. | tyFunction .. | tyArray .. => true
  | _ => false

/-- Below any other type expression there is nothing. -/
theorem DeclKind.children_of_not_isComposite {kind : DeclKind} (ht : kind.isTypeExpr = true)
    (hu : ∀ alternatives, kind ≠ .tyUnion alternatives) (hc : kind.isComposite = false) : kind.children = [] := by
  cases kind with
  | tyUnion alternatives => exact absurd rfl (hu alternatives)
  | tyName _ | tyGeneric _ | tyLiteral _ => rfl
  | tyTable _ | tyField _ _ | tyFunction _ _ | tyArray _ => cases hc
  | _ => cases ht

theorem Substitutions.get?_push_cases {t : Substitutions} {i : GenericId} {sub new : Substitution}
    (h : (t.push new).2.get? i = some sub) : t.get? i = some sub ∨ sub = new := by
  rw [get?, push, Array.getElem?_push] at h
  split at h
  · exact .inr (Option.some.inj h).symm
  · exact .inl h

namespace Env

variable {env : Env} {F s s' t : Session} {key target : SlotKey} {f ty call d e : DeclId} {n : TypeNode}

/-- What is made for a documented result has the result type. -/
theorem inReturnType_of_template {sub : Substitution} (h : .template sub ∈ env.rule key) :
    env.arena.InReturnType sub.proto := by
  obtain ⟨f, index, -, rfl, -⟩ := explains_of_mem_rule h
  have hrule : .template sub ∈ env.returnRule f index := h
  have hdoc := (template_mem_returnRule hrule).1
  unfold returnRule at hrule
  split at hrule
  · next hnil => exact absurd hnil hdoc
  · obtain ⟨ty, hty, hstep⟩ := List.mem_map.1 hrule
    obtain ⟨doc, -, hk⟩ := mem_returnTypes.1 hty
    unfold returnTypeStep at hstep
    split at hstep
    · split at hstep
      · cases hstep
        exact ⟨doc, index, ty, hk, .refl⟩
      · cases hstep
    · cases hstep

/-! ## What slots draw from -/

/-- An argument that tells what a type parameter of `f` is has the node. -/
def Passes (env : Env) (F : Session) (f call : DeclId) (n : TypeNode) : Prop :=
  ∃ source ∈ env.inferenceSources f call, n ∈ F.cache.members (F.cache.node? (.decl source.2))

/-- An alternative that instantiation takes as it is: it is no type parameter of `f`, and no union. -/
structure Remains (env : Env) (f ty alt : DeclId) (kind : DeclKind) : Prop where
  alternative : env.arena.Alternative ty alt
  known : env.arena.kind? alt = some kind
  param : (Signature.of? env.arena f).bind (·.paramUse? kind) = none
  union : ∀ alternatives, kind ≠ .tyUnion alternatives

/-- What a slot may hold, judged by the session `F`: the parts of a result type hold what their parts are by
themselves, and a substitution that is bound to a call what arguments have and what remains. -/
def Draw (env : Env) (F : Session) : SlotKey → TypeNode → Prop
  | .decl e, n => env.arena.InReturnType e → ∃ x, env.arena.Within e x ∧ env.Owns x n
  | .ret .., _ => True
  | .generic i, n => ∀ f ty call, F.substitutions.get? i = some ⟨f, ty, some call⟩ →
      env.Passes F f call n ∨ ∃ alt kind x, env.Remains f ty alt kind ∧ env.arena.Within alt x ∧ env.Owns x n

/-- What a substitution may hold depends on what it is in the end. -/
theorem draw_generic {i : GenericId} {sub : Substitution} (hi : F.substitutions.get? i = some sub)
    (hn : ∀ call, sub.call = some call → env.Passes F sub.func call n ∨
      ∃ alt kind x, env.Remains sub.func sub.proto alt kind ∧ env.arena.Within alt x ∧ env.Owns x n) :
    env.Draw F (.generic i) n := by
  intro f ty call hsub
  rw [hi] at hsub
  cases hsub
  exact hn call rfl

end Env

/-- Substitutions are for documented result types, and slots draw from where they may if the session comes before `F`. -/
structure Session.Drawing (env : Env) (s F : Session) : Prop where
  wellFormed : s.cache.WellFormed
  proto : ∀ i sub, s.substitutions.get? i = some sub → env.arena.InReturnType sub.proto
  cache : s.Before F → s.cache.Sound (env.Draw F)

namespace Session.Drawing

variable {env : Env} {F s s' t : Session} {T : Set SlotKey} {key target : SlotKey} {n : TypeNode}

theorem withSubstitution (h : s.Drawing env F) {sub : Substitution} (hsub : env.Makes s sub) :
    (s.withSubstitution sub).Drawing env F := by
  refine ⟨h.wellFormed, fun i sub' hi => ?_, fun hb => h.cache ?_⟩
  · rcases Substitutions.get?_push_cases hi with hi | rfl
    · exact h.proto i sub' hi
    · cases hsub with
      | template hstep => exact Env.inReturnType_of_template hstep
      | copy htemplate => exact h.proto _ ⟨_, _, none⟩ htemplate
  · exact .of_grows (Evolves.addSubstitution ∅ s sub h.wellFormed).2 hb

theorem congr (h : s.Drawing env F) (hcache : s'.cache = s.cache) (hsubs : s'.substitutions = s.substitutions) :
    s'.Drawing env F :=
  ⟨hcache ▸ h.wellFormed, hsubs ▸ h.proto, fun hb => hcache ▸ h.cache ⟨hsubs ▸ hb.substitution, hcache ▸ hb.members⟩⟩

theorem start (h : s.Drawing env F) (habs : s.cache.slot? key = none) (kind : String) :
    (s.start key kind).Drawing env F := by
  refine ⟨h.wellFormed.start habs, h.proto, fun hb => (h.cache ⟨hb.substitution, fun k => ?_⟩).start⟩
  refine List.IsPrefix.trans ?_ (hb.members k)
  -- the new slot had no members
  change s.cache.members _ <+: s.cache.members ((s.cache.start key).node? k)
  rw [NodeCache.node?_start]
  split
  · next hk => rw [hk, NodeCache.node?, habs]; exact List.prefix_rfl
  · exact List.prefix_rfl

theorem finish (h : s.Drawing env F) (query : Nat) : (s.finish query key).Drawing env F := by
  have hnode : ∀ k, (s.finish query key).cache.node? k = s.cache.node? k := fun k => NodeCache.node?_finish
  refine ⟨h.wellFormed.finish, h.proto, fun hb => (h.cache ⟨hb.substitution, fun k => ?_⟩).finish⟩
  have hk := hb.members k
  rwa [hnode] at hk

/-- A slot takes a node that is right for it. -/
theorem setNode (h : s.Drawing env F) {node : Option TypeNode} (hholds : ∀ n, node = some n → s.cache.unions.Holds n)
    (hn : s.Before F → ∀ n, node = some n → s.cache.Justified (env.Draw F) target n) :
    (s.setNode target node).Drawing env F := by
  have hset : s.Evolves {target} (s.setNode target node) := .setNode fun _ => hholds
  obtain ⟨hw, hg⟩ := hset h.wellFormed
  refine ⟨hw, h.proto, fun hb => ?_⟩
  have hbefore := Before.of_grows hg hb
  exact (h.cache hbefore).setNode (hn hbefore)

theorem flat (h : s.Drawing env F) (hflat : n.isUnion = false) (hn : s.Before F → env.Draw F target n) :
    (s.setNode target (some n)).Drawing env F := by
  refine h.setNode (UnionArena.holds_some hflat) fun hb m hm => ?_
  cases hm
  exact .of_flat hflat (hn hb)

end Session.Drawing

/-- Slots draw from where they may. -/
def Regime.drawing (env : Env) (F : Session) : Regime env where
  Holds s := s.Drawing env F
  Allows _ _ := True
  wellFormed h := h.wellFormed
  plain _ := trivial
  member _ _ := trivial
  grows _ _ := trivial
  bind hsub h := h.withSubstitution hsub
  new _ _ := trivial

namespace Env

variable {env : Env} {F s s' t : Session} {key target : SlotKey} {fuel : Nat} {f call d e : DeclId} {n : TypeNode}
  {compile : Compile} {u : Unit}

/-- A slot that may hold anything. -/
theorem absorbs_drawing (hfree : ∀ n, env.Draw F target n) : (Regime.drawing env F).Absorbs target := by
  intro s n hs _ hholds
  refine hs.setNode (by rintro _ ⟨⟩; exact hholds) fun _ m hm => ?_
  cases hm
  cases n with
  | union v =>
    obtain ⟨owner, ho⟩ := hs.wellFormed.owner v hholds
    exact ⟨owner, ho, fun m _ => hfree m⟩
  | _ => exact hfree _

section

variable (hv : compile.Visiting) (hc : (Regime.drawing env F).Serves compile)
include hv hc

/-- A slot takes the node of a declaration that may hold nothing else. -/
theorem mergeDecl_drawing (hD : s.Before F → ∀ n, env.Draw F (.decl d) n → env.Draw F target n) (hs : s.Drawing env F)
    (h : (mergeDecl compile target d).run s = .ok (u, s')) : s'.Drawing env F := by
  obtain ⟨node, t, hd, h⟩ := Resolve.bind_ok h
  rw [Resolve.mergeNode_ok h]
  have hvis := hv _ _ _ _ hs.wellFormed hd
  have ht : t.Drawing env F := (hc _ _ _ _ hs (by simp) hd).1
  refine ht.setNode hvis.holds fun hb n hn => ?_
  exact ((ht.cache hb).node _ n (hvis.node.trans hn)).feed (hD (.of_grows hvis.grows hb))

theorem runStep_drawing (h : env.Typed) (he : env.arena.InReturnType e) {st : Step} (hst : st ∈ env.declRule e)
    (hs : s.Drawing env F) (hr : (runStep env compile fuel (.decl e) st).run s = .ok (u, s')) : s'.Drawing env F := by
  rcases mem_declRule_children_of_inReturnType h he hst with ⟨n, rfl, -⟩ | ⟨x, hx, rfl⟩
  · rw [Resolve.mergeNode_ok hr]
    have hown := own_mem_declRule.1 hst
    have hdraw : env.Draw F (.decl e) n := fun _ => ⟨e, .refl, hown⟩
    exact hs.flat hown.not_union fun _ => hdraw
  · refine mergeDecl_drawing hv hc (fun _ n hn => ?_) hs hr
    rintro -
    obtain ⟨y, hy, hown⟩ := hn (he.within (.single hx))
    exact ⟨y, .head hx hy, hown⟩

/-- Types are found for type parameters in the nodes of arguments. -/
theorem inferBindings_passes {bindings : Bindings} (hs : s.Drawing env F)
    (h : (inferBindings env compile f call).run s = .ok (bindings, s')) :
    s'.Before F → ∀ entry ∈ bindings, ∀ n ∈ entry.2, env.Passes F f call n := by
  obtain ⟨entries, t, hm, h⟩ := Resolve.bind_ok h
  obtain ⟨rfl, rfl⟩ := Resolve.pure_ok h
  have hkeep := Resolve.mapM_ok (fun t => t.Drawing env F)
    (fun t entry => t.Before F → ∀ binding ∈ entry, ∀ n ∈ binding.2, env.Passes F f call n) ?_ hs hm
  · intro hb entry hentry
    obtain ⟨l, hl, hentry⟩ := List.mem_flatten.1 hentry
    exact hkeep.2.1 l hl hb entry hentry
  · rintro ⟨uses, arg⟩ harg t₁ entry t₂ ht₁ hr
    obtain ⟨node, t₃, hd, hr⟩ := Resolve.bind_ok hr
    obtain ⟨_, _, hg, hr⟩ := Resolve.bind_ok hr
    cases hg
    obtain ⟨rfl, rfl⟩ := Resolve.pure_ok hr
    have hvis := hv _ _ _ _ ht₁.wellFormed hd
    refine ⟨(hc _ _ _ _ ht₁ (by simp) hd).1, fun hb binding hbinding n hn => ?_,
      fun c hpasses hb => hpasses (.of_grows hvis.grows hb)⟩
    obtain ⟨param, -, rfl⟩ := List.mem_map.1 hbinding
    exact ⟨_, harg, (hb.members _).subset (by rwa [hvis.node])⟩

theorem instantiate_drawing {i : GenericId} {sub : Substitution} {alt : DeclId} {bindings : Bindings} {depth : Nat}
    (hi : s.substitutions.get? i = some sub) (hproto : env.arena.InReturnType sub.proto)
    (hflat : ∀ entry ∈ bindings, ∀ n ∈ entry.2, n.isUnion = false)
    (hpasses : s.Before F → ∀ call, sub.call = some call → ∀ entry ∈ bindings, ∀ n ∈ entry.2, env.Passes F sub.func call n)
    (halt : env.arena.Alternative sub.proto alt) (hs : s.Drawing env F)
    (h : (instantiate env compile (.generic i) (Signature.of? env.arena sub.func) bindings depth alt).run s = .ok (u, s')) :
    s'.Drawing env F := by
  induction depth generalizing alt s s' with
  | zero => cases h
  | succ depth ih =>
    rw [instantiate] at h
    split at h
    · rw [(Resolve.pure_ok h).2]
      exact hs
    · next kind hk =>
      split at h
      · -- a type parameter: what is found for it
        refine (Resolve.forM_ok (fun t => t.Drawing env F ∧ s.Grows {.generic i} t) (fun n hn t t' ht hm => ?_)
          ⟨hs, .refl _ _⟩ h).1
        rw [Resolve.mergeNode_ok hm]
        obtain ⟨entry, hentry, hn⟩ := Bindings.exists_of_mem_of hn
        have hnu := hflat entry hentry n hn
        have hset : t.Evolves {.generic i} (t.setNode (.generic i) (some n)) := .setNode_flat hnu
        refine ⟨ht.1.flat hnu fun hb => ?_, ht.2.trans (hset ht.1.wellFormed).2⟩
        have hbefore := Session.Before.of_grows ht.2 hb
        exact draw_generic (hbefore.substitution i sub hi) fun call hcall => .inl (hpasses hbefore call hcall entry hentry n hn)
      · next hparam =>
        split at h
        · -- a union: each of its alternatives
          refine (Resolve.forM_ok (fun t => t.Drawing env F ∧ s.Grows {.generic i} t) (fun x hx t t' ht hr => ?_)
            ⟨hs, .refl _ _⟩ h).1
          exact ⟨ih (ht.2.substitution i sub hi) (fun hb => hpasses (.of_grows ht.2 hb)) (halt.step hk hx) ht.1 hr,
            ht.2.trans (instantiate_evolves hv hflat hr ht.1.wellFormed).2⟩
        · next hunion =>
          refine mergeDecl_drawing hv hc (fun hb n hn => ?_) hs h
          obtain ⟨x, hx, hown⟩ := hn (hproto.within halt.within)
          exact draw_generic (hb.substitution i sub hi) fun call _ => .inr ⟨alt, kind, x, ⟨halt, hk, hparam, hunion⟩, hx, hown⟩

theorem runSubstitution_drawing {i : GenericId} (hs : s.Drawing env F)
    (h : (runSubstitution env compile (.generic i) i).run s = .ok (u, s')) : s'.Drawing env F := by
  rcases runSubstitution_ok h with rfl | ⟨sub, depth, bindings, t, t', left, hsub, -, hb, hi, -, rfl⟩
  · exact hs
  · have hentered : Session.Drawing env { s with depth } F := hs.congr rfl rfl
    have hproto := hs.proto i sub hsub
    refine Session.Drawing.congr (s := t') ?_ rfl rfl
    rcases hcall : sub.call with _ | call <;> simp only [hcall] at hb
    · obtain ⟨rfl, rfl⟩ := Resolve.pure_ok hb
      exact instantiate_drawing hv hc (s := { s with depth }) hsub hproto (by simp) (by simp) .refl hentered hi
    · obtain ⟨hevolves, hflat⟩ := inferBindings_evolves hv hentered.wellFormed hb
      have hg := (hevolves hentered.wellFormed).2
      have hpasses := inferBindings_passes hv hc hentered hb
      refine instantiate_drawing hv hc (hg.substitution i sub hsub) hproto hflat
        (fun hb c hc => ?_) .refl (Regime.inferBindings_upholds hv hc hentered hb).1 hi
      rw [hcall] at hc
      cases hc
      exact hpasses hb

end

theorem compileSlot_drawing (h : env.Typed) (F : Session) (fuel : Nat) :
    (Regime.drawing env F).Serves (env.compileSlot fuel) := by
  refine Regime.compileSlot_serves (fun s key slot hs _ => ⟨?_, fun _ _ => trivial⟩)
    (fun fuel key s t hc hs _ habs hr => ⟨?_, fun _ _ => trivial⟩) fuel
  · exact hs.congr (Session.cache_hit ..).1 (by cases slot.state <;> rfl)
  · have hv := env.compileSlot_visits fuel
    have hstart : (s.start key (env.slotKind key)).Drawing env F := hs.start habs _
    refine Session.Drawing.finish ?_ _
    cases key with
    | decl e =>
      have hsteps : ((env.declRule e).forM (runStep env (env.compileSlot fuel) fuel (.decl e))).run _ = _ := hr
      by_cases he : env.arena.InReturnType e
      · exact Resolve.forM_ok (fun t => t.Drawing env F)
          (fun st hst _ _ ht hr => runStep_drawing hv hc h he hst ht hr) hstart hsteps
      · have hfree : ∀ n, env.Draw F (.decl e) n := fun n hin => absurd hin he
        exact Regime.steps_uphold (absorbs_drawing hfree) hv hc
          (fun _ hst => show _ ∈ env.rule (.decl e) from hst) hstart hsteps
    | ret f index =>
      have hfree : ∀ n, env.Draw F (.ret f index) n := fun n => trivial
      exact Regime.steps_uphold (absorbs_drawing hfree) hv hc
        (fun _ hst => show _ ∈ env.rule (.ret f index) from hst) hstart hr
    | generic i => exact runSubstitution_drawing hv hc hstart hr

end Env

/-! ## Members that mention a type parameter -/

/-- `---@generic T; ---@param x T; ---@return T[]; function(x) end`, called with `1`. -/
def Program.sampleArray : Program :=
  (empty.build [.function ["x"], .docGeneric ⟨1⟩ ["T"], .tyName "T", .docParam ⟨1⟩ "x" ⟨3⟩, .tyName "T", .tyArray ⟨5⟩,
    .docReturn ⟨1⟩ 1 ⟨6⟩, .integer 1, .call ⟨1⟩ [⟨8⟩]]).2

/-- A call passes an argument for each parameter that has an annotation. -/
def Env.supplies (env : Env) (f call : DeclId) : Bool :=
  (env.arena.docs f).all fun doc =>
    match env.arena.kind? doc with
    | some (.docParam name _) =>
      (((env.arena.params f).findIdx? fun d => env.arena.localName? d == some name).bind (env.argument? call)).isSome
    | _ => true

namespace Session

variable {env : Env} {F s s' : Session} {qs : List Query} {answers : List Answer} {i : GenericId} {f ty call d : DeclId}
  {node : Option TypeNode}

theorem drawing_fresh : fresh.Drawing env F :=
  ⟨NodeCache.wellFormed_empty, by simp [fresh, Substitutions.get?, Substitutions.empty], fun _ => .empty⟩

theorem askAll_drawing (ht : env.Typed) (hqs : ∀ q ∈ qs, q.merges = false)
    (h : fresh.askAll env qs = .ok (answers, s)) : s.Drawing env F := by
  refine askAll_ok (fun t => t.Drawing env F) (fun q hq t b t' hs ha => ?_) drawing_fresh h
  by_cases hin : q.isInquiry = true
  · exact Regime.ask_upholds (R := .drawing env F) (Env.compileSlot_drawing ht F) hin (fun _ _ => trivial) hs ha
  · cases q with
    | clear => cases ha; exact drawing_fresh.congr rfl rfl
    | setNode key node => cases hqs _ hq
    | _ => exact absurd rfl hin

/-- If documented results are type expressions, then whatever was asked before, a declaration among the members of a
substitution that is bound to a call mentions a type parameter of the function only if an argument has that member, or
if it stands at or below an alternative of the result type that is an array, a table or a function. -/
theorem leaf_mentions_of_compileGeneric {p : Program} {options : Options} {sig : Signature} (hp : p.Built)
    (htypes : p.arena.ReturnsTypes) (hqs : ∀ q ∈ qs, q.merges = false)
    (h : fresh.askAll (.of p options) qs = .ok (answers, s)) (hg : s.compileGeneric (.of p options) i = .ok (node, s'))
    (hi : s'.substitutions.get? i = some ⟨f, ty, some call⟩) (hsig : Signature.of? p.arena f = some sig)
    (hd : .leaf d ∈ s'.cache.members node) (hm : sig.references p.arena d = true) :
    (Env.of p options).Passes s' f call (.leaf d) ∨ ∃ alt kind, p.arena.Alternative ty alt ∧
      p.arena.kind? alt = some kind ∧ kind.isComposite = true ∧ p.arena.Within alt d := by
  have ht := hp.formed.typed htypes options
  have hs : s.Drawing (.of p options) s' := askAll_drawing ht hqs h
  have hs' : s'.Drawing (.of p options) s' := (Env.compileSlot_drawing ht s' _ _ _ _ _ hs (fun _ _ => trivial) hg).1
  have hnode := (compile_visits hs.wellFormed hg).node
  have hdraw := (hs'.cache (.refl s')).members (k := .generic i) (m := .leaf d) (by rwa [hnode])
  refine (hdraw f ty call hi).imp_right ?_
  rintro ⟨alt, kind, x, hremains, hx, hown⟩
  cases hown with
  | leaf _ _ =>
    refine ⟨alt, kind, hremains.alternative, hremains.known, ?_, hx⟩
    by_contra hsimple
    -- otherwise there is nothing below the alternative, and it is no type parameter itself
    have hin := (hs'.proto i _ hi).within hremains.alternative.within
    have hchildren : ∀ e, p.arena.Within alt e → e = alt := by
      intro e he
      rcases he.cases_head with rfl | ⟨c, hc, -⟩
      · rfl
      · have hnone : p.arena.children alt = [] := by
          rw [Arena.children, show p.arena.kind? alt = some kind from hremains.known]
          exact DeclKind.children_of_not_isComposite (htypes alt kind hin hremains.known) hremains.union (by simpa using hsimple)
        rw [hnone] at hc
        cases hc
    obtain rfl := hchildren d hx
    obtain ⟨e, k, he, hk, hparam⟩ := Signature.exists_param_of_references hm
    obtain rfl := hchildren e he
    have hnone := hremains.param
    rw [show Signature.of? (Env.of p options).arena f = some sig from hsig] at hnone
    rw [show p.arena.kind? e = some kind from hremains.known] at hk
    cases hk
    exact hparam hnone

/-- The substitution that the call of the sample has, resolved. -/
theorem compileGeneric_sampleArray : ∃ answers s node s', ∃ sig : Signature,
    fresh.askAll (.of .sampleArray {}) [.decl ⟨9⟩] = .ok (answers, s) ∧
    s.compileGeneric (.of .sampleArray {}) ⟨1⟩ = .ok (node, s') ∧ s'.cache.members node = [.leaf ⟨6⟩] ∧
    s'.substitutions.get? ⟨1⟩ = some ⟨⟨1⟩, ⟨6⟩, some ⟨9⟩⟩ ∧ Signature.of? Program.sampleArray.arena ⟨1⟩ = some sig ∧
    sig.references Program.sampleArray.arena ⟨6⟩ = true := by
  obtain ⟨⟨answers, s⟩, hask, hrun⟩ := Except.exists_ok (x := fresh.askAll (.of .sampleArray {}) [.decl ⟨9⟩])
    (f := fun r => (r.2.compileGeneric (.of .sampleArray {}) ⟨1⟩).toOption.map fun q =>
      (q.2.cache.members q.1, q.2.substitutions.get? ⟨1⟩))
    (b := some ([.leaf ⟨6⟩], some ⟨⟨1⟩, ⟨6⟩, some ⟨9⟩⟩)) (by decide +kernel)
  obtain ⟨⟨node, s'⟩, hg, hresult⟩ := Except.exists_ok hrun
  simp only [Prod.mk.injEq] at hresult
  have hany : (Signature.of? Program.sampleArray.arena ⟨1⟩).any (·.references Program.sampleArray.arena ⟨6⟩) = true := by
    decide +kernel
  obtain ⟨sig, hsig, hm⟩ := (Option.any_eq_true _ _).1 hany
  exact ⟨answers, s, node, s', sig, hask, hg, hresult.1, hresult.2, hsig, hm⟩

/-- The member that the call of the sample is left with comes from the array. -/
theorem leaf_mentions_of_compileGeneric_array : ∃ answers s node s', ∃ sig : Signature,
    fresh.askAll (.of .sampleArray {}) [.decl ⟨9⟩] = .ok (answers, s) ∧
    s.compileGeneric (.of .sampleArray {}) ⟨1⟩ = .ok (node, s') ∧ s'.cache.members node = [.leaf ⟨6⟩] ∧
    sig.references Program.sampleArray.arena ⟨6⟩ = true ∧
    ((Env.of .sampleArray {}).Passes s' ⟨1⟩ ⟨9⟩ (.leaf ⟨6⟩) ∨ ∃ alt kind, Program.sampleArray.arena.Alternative ⟨6⟩ alt ∧
      Program.sampleArray.arena.kind? alt = some kind ∧ kind.isComposite = true ∧
      Program.sampleArray.arena.Within alt ⟨6⟩) := by
  obtain ⟨answers, s, node, s', sig, hask, hg, hmembers, hi, hsig, hm⟩ := compileGeneric_sampleArray
  refine ⟨answers, s, node, s', sig, hask, hg, hmembers, hm, ?_⟩
  exact leaf_mentions_of_compileGeneric ⟨_, .inl rfl⟩ (Arena.returnsTypes_of_children (by decide +kernel)) (by decide)
    hask hg hi hsig (by simp [hmembers]) hm

/-- No declaration is below itself, and the call passes an argument for the parameter whose type is the type parameter. Yet
the result is the array, in which the type parameter is mentioned. -/
theorem compileGeneric_leaves_param : ∃ answers s node s', ∃ sig : Signature,
    (∀ i < Program.sampleArray.arena.size, ∀ e ∈ Program.sampleArray.arena.children ⟨i⟩, e.index < i) ∧
    (Env.of .sampleArray {}).supplies ⟨1⟩ ⟨9⟩ = true ∧
    fresh.askAll (.of .sampleArray {}) [.decl ⟨9⟩] = .ok (answers, s) ∧
    s.compileGeneric (.of .sampleArray {}) ⟨1⟩ = .ok (node, s') ∧
    s'.substitutions.get? ⟨1⟩ = some ⟨⟨1⟩, ⟨6⟩, some ⟨9⟩⟩ ∧ Signature.of? Program.sampleArray.arena ⟨1⟩ = some sig ∧
    .leaf ⟨6⟩ ∈ s'.cache.members node ∧ Program.sampleArray.arena.Within ⟨6⟩ ⟨6⟩ ∧
    sig.references Program.sampleArray.arena ⟨6⟩ = true := by
  obtain ⟨answers, s, node, s', sig, hask, hg, hmembers, hi, hsig, hm⟩ := compileGeneric_sampleArray
  exact ⟨answers, s, node, s', sig, by decide +kernel, by decide +kernel, hask, hg, hi, hsig, by simp [hmembers], .refl, hm⟩

end Session

end LuaInfer
