import LuaInfer.Proofs.Firm
/-!
# Slots that draw from others

Some declarations, the readers, take only what others have, the origins, and what other readers have. Are their members then
members of origins? Unions are shared, and what a slot holds may grow after it was taken, so it is not enough to look at the members
at the time of a merge. What is kept is where they come from (`NodeCache.Draws`): a union that a reader holds is one that an origin
holds, or that a reader owns. An origin that leaves a union to get one of its own would break this. It does not happen if the rules
of origins take one node at most, or start with one of their own (`Env.Steady`).

Readers may also search declarations that depend on nothing but one another, if what is found there are origins and readers
(`Env.Funnels`). `Env.compileSlot_feeding`: then, whatever slot is resolved, readers have only what is drawn from origins.
-/

namespace LuaInfer

/-! ## Slots that draw from others -/

namespace NodeCache

variable {origins readers : Set DeclId} {c c' : NodeCache} {T : Set SlotKey} {key k : SlotKey} {n m : TypeNode}
  {node : Option TypeNode} {d : DeclId}

/-- One of the declarations has the node among its members. -/
def Within (origins : Set DeclId) (c : NodeCache) (n : TypeNode) : Prop :=
  ∃ e ∈ origins, n ∈ c.members (c.node? (.decl e))

/-- All members of the node are members of an origin. If it is a union, it is one that an origin holds, or that a reader
owns: nobody else adds to it. -/
structure Drawn (origins readers : Set DeclId) (c : NodeCache) (node : Option TypeNode) : Prop where
  within : ∀ m ∈ c.members node, c.Within origins m
  shared : ∀ u, node = some (.union u) →
    (∃ e ∈ origins, c.node? (.decl e) = some (.union u)) ∨ ∃ a ∈ readers, c.unions.owner? u = some (.decl a)

/-- All that readers have is drawn from origins. -/
structure Draws (origins readers : Set DeclId) (c : NodeCache) : Prop where
  wellFormed : c.WellFormed
  drawn : ∀ a ∈ readers, c.Drawn origins readers (c.node? (.decl a))

/-- The slot has no node yet, or one of its own: nobody shares a union through it that it might leave. -/
def Open (c : NodeCache) (k : SlotKey) : Prop := c.slot? k = some ⟨.inProgress, none⟩ ∨ c.Own k

theorem Within.grows (h : c.Within origins n) (hg : Grows T c c') : c'.Within origins n := by
  obtain ⟨e, he, hn⟩ := h
  exact ⟨e, he, (hg.members _).subset hn⟩

theorem Open.grows (h : c.Open k) (hg : Grows T c c') (hk : k ∉ T) : c'.Open k :=
  h.imp (hg.slot k hk _) fun hown => hown.grows hg hk

theorem drawn_of_origin (hd : d ∈ origins) : c.Drawn origins readers (c.node? (.decl d)) where
  within _ hm := ⟨d, hd, hm⟩
  shared _ hu := .inl ⟨d, hd, hu⟩

/-- A union stays in a slot that owns it. -/
theorem node?_setNode_of_open {u : UnionId} (hw : (c.setNode key node).WellFormed) (h : c.Open key)
    (hu : c.node? key = some (.union u)) : (c.setNode key node).node? key = some (.union u) := by
  rcases h with hslot | ⟨n, hn, hown⟩
  · rw [node?_of_slot? hslot] at hu
    cases hu
  · exact hw.owned u key (owner?_setNode (hown u (Option.some.inj (hn.symm.trans hu))))

/-- After a merge a slot has the node it had, or the one that is merged, or a union of its own. -/
theorem node?_setNode_cases (c : NodeCache) (key : SlotKey) (node : Option TypeNode) :
    (c.setNode key node).node? key = c.node? key ∨ (c.setNode key node).node? key = node ∨
      ∃ u, (c.setNode key node).node? key = some (.union u) ∧ (c.setNode key node).unions.owner? u = some key := by
  cases node with
  | none => exact .inl rfl
  | some n =>
    rcases setNode_cases c key n with ⟨-, e⟩ | ⟨_, -, -, e⟩ | ⟨u, -, -, e⟩ | ⟨current, -, -, e⟩ <;> rw [e]
    · exact .inr (.inl (by rw [node?_store, if_pos rfl]))
    · exact .inl rfl
    · exact .inl rfl
    · rw [storeUnion_eq]
      exact .inr (.inr ⟨_, by rw [node?_store, if_pos rfl], UnionArena.owner?_make_self⟩)

section
variable (h : c.Draws origins readers) (hn : ∀ n, node = some n → c.unions.Holds n)
  (horigins : ∀ e ∈ origins, key = .decl e → c.Open key)
  (hreaders : ∀ a ∈ readers, key = .decl a → c.Drawn origins readers node)
include h hn horigins hreaders

/-- What is drawn stays so: the union in it grows only with a slot that still holds it. -/
theorem Drawn.setNode {x : Option TypeNode} (hx : c.Drawn origins readers x) (hholds : ∀ n, x = some n → c.unions.Holds n) :
    (c.setNode key node).Drawn origins readers x := by
  have hw : (c.setNode key node).WellFormed := h.wellFormed.setNode hn
  have hg : Grows {key} c (c.setNode key node) := .setNode h.wellFormed hn
  have horigin : ∀ e ∈ origins, ∀ u, c.node? (.decl e) = some (.union u) →
      (c.setNode key node).node? (.decl e) = some (.union u) := by
    intro e he u hu
    by_cases hke : key = .decl e
    · subst hke
      exact node?_setNode_of_open hw (horigins e he rfl) hu
    · rwa [node?, slot?_setNode_of_ne (Ne.symm hke)]
  refine ⟨fun m hm => ?_, fun u hu => (hx.shared u hu).imp ?_ ?_⟩
  · by_cases hchanged : m ∈ c.members x
    · exact (hx.within m hchanged).grows hg
    · -- a member is new, so `x` is a union that the slot owns
      have hunion : ∃ u, x = some (.union u) ∧ c.unions.owner? u = some key := by
        by_contra hno
        refine hchanged ?_
        rwa [hg.members_eq hholds fun u hu k hk ho => hno ⟨u, hu, by rw [ho, Set.mem_singleton_iff.1 hk]⟩] at hm
      obtain ⟨u, rfl, ho⟩ := hunion
      rcases hx.shared u rfl with ⟨e, he, hu⟩ | ⟨a, ha, hu⟩
      · exact ⟨e, he, by rwa [horigin e he u hu]⟩
      · obtain rfl : key = .decl a := Option.some.inj (ho.symm.trans hu)
        rw [← hw.owned u _ (owner?_setNode hu), mem_setNode h.wellFormed] at hm
        exact (hm.elim ((h.drawn a ha).within m) ((hreaders a ha rfl).within m)).grows hg
  · rintro ⟨e, he, hu⟩
    exact ⟨e, he, horigin e he u hu⟩
  · rintro ⟨a, ha, hu⟩
    exact ⟨a, ha, owner?_setNode hu⟩

/-- Merges keep what readers have drawn from origins, if an origin merges only while its slot is open and a reader merges only what
is drawn. -/
theorem Draws.setNode : (c.setNode key node).Draws origins readers := by
  have hg : Grows {key} c (c.setNode key node) := .setNode h.wellFormed hn
  refine ⟨h.wellFormed.setNode hn, fun a ha => ?_⟩
  have hold := (h.drawn a ha).setNode h hn horigins hreaders (h.wellFormed.known _)
  by_cases hka : key = .decl a
  · subst hka
    have hnode := (hreaders a ha rfl).setNode h hn horigins hreaders hn
    refine ⟨fun m hm => ?_, fun u hu => ?_⟩
    · rw [mem_setNode h.wellFormed] at hm
      exact (hm.elim ((h.drawn a ha).within m) ((hreaders a ha rfl).within m)).grows hg
    · rcases node?_setNode_cases c (.decl a) node with heq | heq | ⟨v, hv, ho⟩
      · exact hold.shared u (heq.symm.trans hu)
      · exact hnode.shared u (heq.symm.trans hu)
      · rw [hv] at hu
        cases hu
        exact .inr ⟨a, ha, ho⟩
  · rwa [node?, slot?_setNode_of_ne (Ne.symm hka)]

end

/-- Only nodes and unions matter. -/
theorem Draws.congr (h : c.Draws origins readers) (hw : c'.WellFormed) (hunions : c'.unions = c.unions)
    (hnode : ∀ k, c'.node? k = c.node? k) : c'.Draws origins readers := by
  have hmembers : ∀ x, c'.members x = c.members x := by
    intro x
    cases x with
    | none => rfl
    | some n => exact congrArg (fun unions => unions.flatten n) hunions
  refine ⟨hw, fun a ha => ⟨fun m hm => ?_, fun u hu => ?_⟩⟩
  · rw [hnode, hmembers] at hm
    obtain ⟨e, he, hme⟩ := (h.drawn a ha).within m hm
    exact ⟨e, he, by rwa [hnode, hmembers]⟩
  · rw [hnode] at hu
    simpa only [hnode, hunions] using (h.drawn a ha).shared u hu

theorem Draws.start (h : c.Draws origins readers) (habs : c.slot? key = none) : (c.start key).Draws origins readers := by
  refine h.congr (h.wellFormed.start habs) rfl fun k => ?_
  rw [node?_start]
  split
  · next hk => rw [hk, node?, habs, Option.bind_none]
  · rfl

theorem Draws.finish (h : c.Draws origins readers) : (c.finish key).Draws origins readers :=
  h.congr h.wellFormed.finish rfl fun _ => node?_finish

theorem draws_empty : NodeCache.empty.Draws origins readers := by
  refine ⟨wellFormed_empty, fun a _ => ⟨fun m hm => ?_, fun u hu => ?_⟩⟩
  · simp [NodeCache.empty, node?, slot?, members] at hm
  · simp [NodeCache.empty, node?, slot?] at hu

end NodeCache

/-! ## Rules that draw from others -/

namespace Env

variable {env : Env} {K origins readers : Set DeclId} {compile : Compile} {fuel : Nat} {d : DeclId} {st : Step}
  {s s' : Session} {u : Unit}

/-- The rule merges one declaration at most, or it starts with a node and goes on with merges: the slot is open whenever
something is merged into it. -/
def Steady (env : Env) (d : DeclId) : Prop :=
  env.declRule d = [] ∨ (∃ e, env.declRule d = [.merge e]) ∨
    ∃ n rest, env.declRule d = .own n :: rest ∧ ∀ st ∈ rest, ∃ e, st = .merge e

/-- Readers merge origins, and what they find on declarations of `K` are origins and readers. -/
structure Funnels (env : Env) (K origins readers : Set DeclId) : Prop where
  closed : env.Closed K
  steady : ∀ e ∈ origins, env.Steady e
  apart : ∀ a ∈ readers, a ∉ origins ∧ a ∉ K
  rule : ∀ a ∈ readers, ∀ st ∈ env.declRule a, (∃ e ∈ origins, st = .merge e) ∨
    ∃ base ∈ K, ∃ name, st = .read base name ∧
      ∀ d ∈ K, ∀ n, env.Owns d n → ∀ f, env.Finds name n f → f ∈ origins ∨ f ∈ readers

/-- What resolution keeps. -/
def Feeding (env : Env) (K origins readers : Set DeclId) (c : NodeCache) : Prop :=
  c.Draws origins readers ∧ env.Confines K c

section
variable (hf : env.Funnels K origins readers) (hv : compile.Visiting) (hk : compile.Keeps (env.Feeding K origins readers))
  (hc : compile.Keeps (env.Confines K))
include hv hk

/-- The rule of a slot that is none of them. -/
theorem runRule_other {key : SlotKey} (hkey : ∀ d, d ∈ K ∨ d ∈ origins ∨ d ∈ readers → key ≠ .decl d)
    (hs : env.Feeding K origins readers s.cache) (h : (runRule env compile fuel key).run s = .ok (u, s')) :
    env.Feeding K origins readers s'.cache := by
  have habsorbs : NodeCache.Absorbs key (env.Feeding K origins readers) := by
    refine ⟨fun c hc => hc.1.wellFormed, fun c node hc hn => ⟨hc.1.setNode hn ?_ ?_, ?_⟩⟩
    · exact fun e he heq => absurd heq (hkey e (.inr (.inl he)))
    · exact fun a ha heq => absurd heq (hkey a (.inr (.inr ha)))
    · exact (absorbs_confines fun d hd => hkey d (.inl hd)).setNode c node hc.2 hn
  exact runRule_keeps habsorbs hv hk hs h

include hf

/-- A reader merges an origin or another reader. -/
theorem mergeDecl_reader {a : DeclId} (ha : a ∈ readers) (hd : d ∈ origins ∨ d ∈ readers)
    (hs : env.Feeding K origins readers s.cache) (h : (mergeDecl compile (.decl a) d).run s = .ok (u, s')) :
    env.Feeding K origins readers s'.cache := by
  obtain ⟨node, t, hr, h⟩ := Resolve.bind_ok h
  rw [Resolve.mergeNode_ok h]
  have hvisit := hv _ _ _ _ hs.1.wellFormed hr
  have ht := hk _ _ _ _ hs hr
  have hdrawn : t.cache.Drawn origins readers node := by
    rw [← hvisit.node]
    exact hd.elim NodeCache.drawn_of_origin (ht.1.drawn d)
  have hnot := hf.apart a ha
  refine ⟨ht.1.setNode hvisit.holds ?_ fun _ _ _ => hdrawn, ?_⟩
  · rintro e he ⟨⟩
    exact absurd he hnot.1
  · refine (absorbs_confines ?_).setNode _ _ ht.2 hvisit.holds
    rintro e he ⟨⟩
    exact hnot.2 he

include hc

/-- The rule of a reader. -/
theorem runRule_reader {a : DeclId} (ha : a ∈ readers) (hs : env.Feeding K origins readers s.cache)
    (h : (runRule env compile fuel (.decl a)).run s = .ok (u, s')) : env.Feeding K origins readers s'.cache := by
  refine Resolve.forM_ok (fun t => env.Feeding K origins readers t.cache) (fun st hst t t' ht hr => ?_) hs h
  rcases hf.rule a ha st hst with ⟨e, he, rfl⟩ | ⟨base, hbase, name, rfl, hfinds⟩
  · exact mergeDecl_reader hf hv hk ha (.inl he) ht hr
  · obtain ⟨found, t₁, hsearch, hr⟩ := Resolve.bind_ok hr
    -- the base has only members that declarations of `K` are by themselves
    have hmembers : ∀ node t₁, (compile (.decl base)).run t = .ok (node, t₁) →
        ∀ n ∈ t₁.cache.members node, ∃ e ∈ K, env.Owns e n := by
      intro node t₁ hr₁ n hn
      have hvisit := hv _ _ _ _ ht.1.wellFormed hr₁
      rw [← hvisit.node] at hn
      exact (hc _ _ _ _ ht.2 hr₁).2.members hn base hbase rfl
    have hplain : ∀ node t₁, (compile (.decl base)).run t = .ok (node, t₁) → ∀ n ∈ t₁.cache.members node, n.IsPlain := by
      intro node t₁ hr₁ n hn
      obtain ⟨e, -, hown⟩ := hmembers node t₁ hr₁ n hn
      exact hown.plain
    obtain ⟨node, hr₁, hfound⟩ := searchMember_plain hplain hsearch
    refine Resolve.forM_ok (fun t => env.Feeding K origins readers t.cache) (fun f hmem t₂ t₃ ht₂ hm => ?_)
      (hk _ _ _ _ ht hr₁) hr
    obtain ⟨n, hn, hfind⟩ := searchPlain_finds hfound hmem
    obtain ⟨e, he, hown⟩ := hmembers node t₁ hr₁ n hn
    exact mergeDecl_reader hf hv hk ha (hfinds e he n hown f hfind) ht₂ hm

/-- One step of a rule that consists of nodes and merges. -/
theorem runStep_feeding (hd : d ∉ readers) (hst : st ∈ env.declRule d) (hplain : (∃ n, st = .own n) ∨ ∃ e, st = .merge e)
    (hopen : d ∈ origins → s.cache.Open (.decl d)) (hs : env.Feeding K origins readers s.cache)
    (h : (runStep env compile fuel (.decl d) st).run s = .ok (u, s')) : env.Feeding K origins readers s'.cache := by
  have hst' : st ∈ env.rule (.decl d) := hst
  refine ⟨?_, runStep_confines hv hc hf.closed hst' hs.2 h⟩
  have hreaders : ∀ (c : NodeCache) (node : Option TypeNode), ∀ a ∈ readers, SlotKey.decl d = .decl a →
      c.Drawn origins readers node := by
    rintro c node a ha ⟨⟩
    exact absurd ha hd
  rcases hplain with ⟨n, rfl⟩ | ⟨e, rfl⟩
  · obtain ⟨_, -, hown⟩ := explains_declRule hst
    rw [Resolve.mergeNode_ok h]
    refine hs.1.setNode (UnionArena.holds_some hown.not_union) ?_ (hreaders _ _)
    rintro e he ⟨⟩
    exact hopen he
  · obtain ⟨node, t, hr, h⟩ := Resolve.bind_ok h
    rw [Resolve.mergeNode_ok h]
    have hvisit := hv _ _ _ _ hs.1.wellFormed hr
    refine (hk _ _ _ _ hs hr).1.setNode hvisit.holds ?_ (hreaders _ _)
    rintro e he ⟨⟩
    exact (hopen he).grows hvisit.grows.cache (by simp)

/-- The rule of an origin, from its start on. -/
theorem runRule_origin (hd : d ∈ origins) (hslot : s.cache.slot? (.decl d) = some ⟨.inProgress, none⟩)
    (hs : env.Feeding K origins readers s.cache) (h : (runRule env compile fuel (.decl d)).run s = .ok (u, s')) :
    env.Feeding K origins readers s'.cache := by
  have hreader : d ∉ readers := fun ha => (hf.apart d ha).1 hd
  rw [runRule] at h
  rcases hf.steady d hd with hrule | ⟨e, hrule⟩ | ⟨n, rest, hrule, hrest⟩
  · rw [hrule] at h
    cases h
    exact hs
  · have hst : .merge e ∈ env.declRule d := by rw [hrule]; exact List.mem_singleton.2 rfl
    rw [hrule] at h
    obtain ⟨_, t, hr, h⟩ := Resolve.bind_ok h
    cases h
    exact runStep_feeding hf hv hk hc hreader hst (.inr ⟨e, rfl⟩) (fun _ => .inl hslot) hs hr
  · have hst : ∀ st ∈ .own n :: rest, st ∈ env.declRule d := by rw [hrule]; exact fun _ h => h
    rw [hrule] at h
    obtain ⟨_, t, hr, h⟩ := Resolve.bind_ok h
    have ht := runStep_feeding hf hv hk hc hreader (hst _ (by simp)) (.inl ⟨n, rfl⟩) (fun _ => .inl hslot) hs hr
    -- from here on the slot has a node of its own
    have hown : t.cache.Own (.decl d) := by
      obtain ⟨_, -, howns⟩ := explains_declRule (hst (.own n) (by simp))
      rw [Resolve.mergeNode_ok hr]
      exact NodeCache.own_setNode (NodeCache.node?_of_slot? hslot) howns.not_union
    refine (Resolve.forM_ok (fun t => env.Feeding K origins readers t.cache ∧ t.cache.Own (.decl d))
      (fun st hmem t₁ t₂ ht₁ hr₁ => ?_) ⟨ht, hown⟩ h).1
    have hst₁ := hst st (by simp [hmem])
    have hmem₁ : st ∈ env.rule (.decl d) := hst₁
    exact ⟨runStep_feeding hf hv hk hc hreader hst₁ (.inr (hrest st hmem)) (fun _ => .inr ht₁.2) ht₁.1 hr₁,
      (runStep_keeps NodeCache.absorbs_own hv hv.keeps_own hmem₁ ⟨ht₁.1.1.wellFormed, ht₁.2⟩ hr₁).2⟩

/-- The rule of a declaration of `K` that is no origin. -/
theorem runRule_inner (hd : d ∈ K) (hnot : d ∉ origins) (hs : env.Feeding K origins readers s.cache)
    (h : (runRule env compile fuel (.decl d)).run s = .ok (u, s')) : env.Feeding K origins readers s'.cache := by
  refine Resolve.forM_ok (fun t => env.Feeding K origins readers t.cache) (fun st hst t t' ht hr => ?_) hs h
  refine runStep_feeding hf hv hk hc (fun ha => (hf.apart d ha).2 hd) hst ?_ (fun hin => absurd hin hnot) ht hr
  exact (hf.closed d hd st hst).imp_right fun ⟨e, _, he⟩ => ⟨e, he⟩

end

/-- Whatever slot is resolved, readers have only what is drawn from origins. -/
theorem compileSlot_feeding (hf : env.Funnels K origins readers) (fuel : Nat) :
    Compile.Keeps (env.Feeding K origins readers) (env.compileSlot fuel) := by
  refine compileSlot_keeps (fun c key hc habs => ⟨hc.1.start habs, hc.2.1.start habs, hc.2.2.start⟩)
    (fun c key hc => ⟨hc.1.finish, hc.2.1.finish, hc.2.2.finish⟩) (fun fuel key s s' u hk hs hslot hr => ?_) fuel
  have hv := env.compileSlot_visits fuel
  have hc := compileSlot_confines hf.closed fuel
  by_cases hin : ∃ d, (d ∈ K ∨ d ∈ origins ∨ d ∈ readers) ∧ key = .decl d
  · obtain ⟨d, hd, rfl⟩ := hin
    by_cases horigin : d ∈ origins
    · exact runRule_origin hf hv hk hc horigin hslot hs hr
    · rcases hd with hd | hd | hd
      · exact runRule_inner hf hv hk hc hd horigin hs hr
      · exact absurd hd horigin
      · exact runRule_reader hf hv hk hc hd hs hr
  · exact runRule_other hv hk (fun d hd heq => hin ⟨d, hd, heq⟩) hs hr

theorem feeding_empty : env.Feeding K origins readers NodeCache.empty :=
  ⟨NodeCache.draws_empty, NodeCache.wellFormed_empty, .empty⟩

end Env

end LuaInfer
