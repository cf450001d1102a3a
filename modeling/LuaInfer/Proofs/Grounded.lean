import LuaInfer.Proofs.Instantiate
import LuaInfer.Proofs.Nesting
import LuaInfer.Proofs.Reserve
/-!
# Resolution ends where no substitution contains itself

A search looks through substitutions, and nothing stops it from coming back to one. If no substitution contains itself
(`Env.Grounded`), those that a search is in are different ones, and as there are only so many (`Env.Affords`), the search ends.
`Env.compileSlot_answering`: then every slot is resolved, from each session that can afford it.
-/

namespace LuaInfer

namespace Resolve

variable {α β σ : Type} {s : Session}

/-- A loop over a list returns if each round does, from what the rounds before it keep for it and for those after it. -/
theorem forM_returns_rest {f : α → Resolve Unit} (I : List α → Session → Prop) {xs : List α}
    (hstep : ∀ x rest t, I (x :: rest) t → ∃ t', (f x).run t = .ok ((), t') ∧ I rest t') (hs : I xs s) :
    ∃ s', (xs.forM f).run s = .ok ((), s') ∧ I [] s' := by
  induction xs generalizing s with
  | nil => exact ⟨s, rfl, hs⟩
  | cons x xs ih =>
    obtain ⟨t, hx, ht⟩ := hstep x xs s hs
    obtain ⟨s', hxs, hs'⟩ := ih ht
    exact ⟨s', (run_bind_of hx).trans hxs, hs'⟩

/-- A loop that gathers answers returns if each round does. -/
theorem mapM_returns {f : α → Resolve β} (I : Session → Prop) {xs : List α}
    (hstep : ∀ x ∈ xs, ∀ t, I t → ∃ b t', (f x).run t = .ok (b, t') ∧ I t') (hs : I s) :
    ∃ ys s', (xs.mapM f).run s = .ok (ys, s') ∧ I s' := by
  induction xs generalizing s with
  | nil => exact ⟨[], s, by rw [List.mapM_nil]; rfl, hs⟩
  | cons x xs ih =>
    obtain ⟨b, t, hx, ht⟩ := hstep x (by simp) s hs
    obtain ⟨ys, s', hxs, hs'⟩ := ih (fun y hy => hstep y (by simp [hy])) ht
    refine ⟨b :: ys, s', ?_, hs'⟩
    rw [List.mapM_cons, run_bind_of hx, run_bind_of hxs]
    rfl

/-- A loop over no members ends at once. -/
theorem foldMembers_of_nil {f : σ → TypeNode → Resolve σ} {node : Option TypeNode} {fuel : Nat} {acc : σ}
    (h : s.cache.members node = []) : (foldMembers f (fuel + 1) ⟨node, 0⟩ acc).run s = .ok (acc, s) := by
  rw [foldMembers, run_bind_of (a := s) (t := s) rfl, Cursor.next?, h]
  rfl

/-- A loop over the members of a node ends if their number stays bounded and none goes away. A round may rely on its member
being none of those that were visited. -/
theorem foldMembers_returns_visited {f : σ → TypeNode → Resolve σ} (I : List TypeNode → σ → Session → Prop)
    {node : Option TypeNode} {bound fuel : Nat} {visited : List TypeNode} {acc : σ}
    (hlen : ∀ v a t, I v a t → (t.cache.members node).Nodup ∧ (t.cache.members node).length ≤ bound)
    (hstep : ∀ n v a t, n ∈ t.cache.members node → n ∉ v → I v a t → ∃ a' t', (f a n).run t = .ok (a', t') ∧
      t.cache.members node <+: t'.cache.members node ∧ I (v ++ [n]) a' t')
    (hs : I visited acc s) (hvisited : visited <+: s.cache.members node) (hfuel : bound < fuel + visited.length) :
    ∃ v acc' s', (foldMembers f fuel ⟨node, visited.length⟩ acc).run s = .ok (acc', s') ∧ I v acc' s' := by
  induction fuel generalizing visited acc s with
  | zero =>
    have := hvisited.length_le
    have := (hlen _ _ _ hs).2
    omega
  | succ fuel ih =>
    rw [foldMembers, run_bind_of (a := s) (t := s) rfl]
    cases hn : (s.cache.members node)[visited.length]? with
    | none =>
      simp only [Cursor.next?, hn, Option.map_none]
      exact ⟨visited, acc, s, rfl, hs⟩
    | some n =>
      simp only [Cursor.next?, hn, Option.map_some]
      obtain ⟨rest, hrest⟩ := hvisited
      rw [← hrest, List.getElem?_append_right (Nat.le_refl _), Nat.sub_self] at hn
      obtain ⟨tail, rfl⟩ : ∃ tail, rest = n :: tail := by
        cases rest with
        | nil => cases hn
        | cons m tail => cases hn; exact ⟨tail, rfl⟩
      have hnodup := (hlen _ _ _ hs).1
      rw [← hrest] at hnodup
      have hmem : n ∈ s.cache.members node := by rw [← hrest]; simp
      have hnot : n ∉ visited := fun hmem' => (List.nodup_append.1 hnodup).2.2 n hmem' n (by simp) rfl
      obtain ⟨a, t, hf, hprefix, ht⟩ := hstep n visited acc s hmem hnot hs
      have hnow : visited ++ [n] <+: t.cache.members node :=
        List.IsPrefix.trans ⟨tail, by rw [← hrest]; simp⟩ hprefix
      rw [run_bind_of hf]
      have hlength : (visited ++ [n]).length = visited.length + 1 := by simp
      rw [← hlength]
      exact ih ht hnow (by rw [hlength]; omega)

end Resolve

/-- From a session that can afford it, each slot is resolved, and what is reserved for others is still there. The rule of a
substitution may be one more under way. -/
def Compile.Answering (env : Env) (r : Reserve) (fuel : Nat) (compile : Compile) : Prop :=
  ∀ key s rest f, key.result ≤ r.index → f + (if key.isGeneric then 1 else 0) ≤ fuel → env.Affords r f rest s →
    ∃ node s', (compile key).run s = .ok (node, s') ∧ env.Affords r f rest s'

namespace Env

variable {env : Env} {compile : Compile} {r : Reserve} {fuel f : Nat} {target key : SlotKey} {s s' t : Session}
  {rest : List Step} {P : Place} {name : Atom} {n : TypeNode} {h : Hunt} {node : Option TypeNode}

theorem Flows.mem_nodes {m : TypeNode} {x : Item} (hflows : env.Flows P x) (hx : x = .node m) : m ∈ env.nodes := by
  induction hflows with
  | own hst =>
    cases hx
    obtain ⟨d, -, hown⟩ := explains_of_mem_rule hst
    exact hown.mem_nodes
  | copy | template => cases hx
  | merge _ _ ih | direct _ ih | through _ _ _ ih | found _ _ _ _ _ ih | result _ _ _ _ _ ih | declared _ _ _ _ _ _ ih
  | argument _ _ ih | part _ _ ih => exact ih hx

/-- Members are among the nodes and the substitutions that there are. -/
theorem length_members_of_may (hs : s.Flowing env) (hmay : ∀ n ∈ s.cache.members node, ∃ key, env.May s.substitutions key n) :
    (s.cache.members node).length ≤ env.nodes.length + s.substitutions.size := by
  have hsub : s.cache.members node ⊆ env.nodes ++ (List.range s.substitutions.size).map fun i => .generic ⟨i⟩ := by
    intro n hn
    obtain ⟨key, P, x, -, hx, hflows⟩ := hmay n hn
    rw [List.mem_append, List.mem_map]
    cases n with
    | generic i =>
      obtain ⟨sub, hi, -⟩ := Option.map_eq_some_iff.1 hx
      exact .inr ⟨i.index, List.mem_range.2 (Substitutions.index_lt_of_get? hi), rfl⟩
    | union u => cases hx
    | _ =>
      cases hx
      exact .inl (hflows.mem_nodes rfl)
  have hle := (List.subperm_of_subset (NodeCache.nodup_members hs.wellFormed.distinct) hsub).length_le
  simpa using hle

theorem Affords.length_members_le (hs : env.Affords r f rest s) (hgives : s.Gives env key node) :
    (s.cache.members node).length ≤ env.nodes.length + r.size :=
  (length_members_of_may hs.flowing fun _ hn => ⟨key, hs.flowing.members hgives hn⟩).trans (Nat.add_le_add_left hs.size_le _)

/-- The substitutions `W` exist, and all of them contain the node, if it is a substitution. -/
def Nests (env : Env) (s : Session) (W : Finset Nat) (n : TypeNode) : Prop :=
  ∀ w ∈ W, ∃ a, s.substitutions.get? ⟨w⟩ = some a ∧
    ∀ b, s.substitutions.item? n = some (.inst b) → Relation.TransGen env.Contains a b

namespace Nests

variable {W : Finset Nat} {i : GenericId} {b : Substitution} {m : TypeNode} {x : Item} {T : Set SlotKey}

theorem empty : env.Nests s ∅ n := by simp [Nests]

theorem exists_of_mem (h : env.Nests s W n) : ∀ w ∈ W, ∃ a, s.substitutions.get? ⟨w⟩ = some a :=
  fun w hw => (h w hw).imp fun _ => And.left

/-- None of the substitutions on the way is this one, because it would contain itself. -/
theorem notMem (h : env.Nests s W (.generic i)) (hground : env.Grounded) (hi : s.substitutions.get? i = some b) :
    i.index ∉ W := by
  intro hmem
  obtain ⟨a, hget, hcontains⟩ := h _ hmem
  rw [show (⟨i.index⟩ : GenericId) = i from rfl, hi] at hget
  cases hget
  exact hground b (hcontains b (Option.map_eq_some_iff.2 ⟨b, hi, rfl⟩))

/-- What flows to a substitution is inside it, and inside those that it is inside of. -/
theorem insert (h : env.Nests s W (.generic i)) (hi : s.substitutions.get? i = some b) (hg : s.Grows T s')
    (hm : s'.substitutions.item? m = some x) (hflows : env.Flows (.inst b) x) : env.Nests s' (insert i.index W) m := by
  intro w hw
  rcases Finset.mem_insert.1 hw with rfl | hw
  · refine ⟨b, hg.substitution i b hi, fun c hc => ?_⟩
    rw [hm] at hc
    cases hc
    exact .single hflows
  · obtain ⟨a, hget, hcontains⟩ := h w hw
    refine ⟨a, hg.substitution _ a hget, fun c hc => ?_⟩
    rw [hm] at hc
    cases hc
    exact (hcontains b (Option.map_eq_some_iff.2 ⟨b, hi, rfl⟩)).tail hflows

end Nests

section Searches

variable (hv : compile.Visiting) (ha : compile.Answering env r fuel)
include hv ha

theorem compile_returns_affords (key : SlotKey) (hkey : key.result ≤ r.index)
    (hfuel : f + (if key.isGeneric then 1 else 0) ≤ fuel) (hs : env.Affords r f rest s) :
    ∃ node t, (compile key).run s = .ok (node, t) ∧ env.Affords r f rest t ∧ Session.Visits key s node t ∧
      t.Gives env key node := by
  obtain ⟨node, t, hr, ht⟩ := ha key s rest f hkey hfuel hs
  have hvis := hv _ _ _ _ hs.flowing.wellFormed hr
  exact ⟨node, t, hr, ht, hvis, ht.flowing.gives hvis⟩

/-! ## Searches -/

/-- The search of a node ends. It is inside those of the substitutions `W`, so none of them is met again, and there are only
so many. -/
theorem huntNode_returns_grounded (hground : env.Grounded) {rounds : Nat} (W : Finset Nat)
    (hn : ∃ x, s.substitutions.item? n = some x) (hW : env.Nests s W n) (hfuel : f < fuel)
    (hrounds : env.reach r < rounds + W.card) (hk : env.hunt.Keeps h) (hs : env.Affords r f rest s) :
    ∃ h' s', (env.huntNode compile name rounds h n).run s = .ok (h', s') ∧ env.hunt.Keeps h' ∧ env.Affords r f rest s' := by
  induction rounds generalizing h n s W with
  | zero =>
    have := hs.card_le hW.exists_of_mem
    unfold reach at hrounds
    omega
  | succ rounds ih =>
    obtain ⟨x, hx⟩ := hn
    cases n with
    | leaf d => exact ⟨_, s, rfl, hk.add _, hs⟩
    | global g =>
      have hsearch : env.hunt.Returned (env.huntGlobal name (env.huntClass name) g h) :=
        huntGlobal_returns (fun g a ha => huntClass_returns g ha) g hk
      obtain ⟨h', hr, hk'⟩ := hsearch
      refine ⟨h', s, ?_, hk', hs⟩
      rw [huntNode, hr]
      rfl
    | union u => cases hx
    | generic i =>
      obtain ⟨b, hi, rfl⟩ := Option.map_eq_some_iff.1 hx
      have hnew := hW.notMem hground hi
      obtain ⟨node, t, hr, ht, hvis, hgives⟩ := compile_returns_affords hv ha (.generic i) (Nat.zero_le _) hfuel hs
      let I : Hunt → Session → Prop := fun a u =>
        env.hunt.Keeps a ∧ env.Affords r f rest u ∧ u.Gives env (.generic i) node ∧ s.Grows ∅ u
      have hlen : ∀ a u, I a u → (u.cache.members node).length ≤ env.nodes.length + r.size :=
        fun _ _ hu => hu.2.1.length_members_le hu.2.2.1
      have hstep : ∀ m a u, m ∈ u.cache.members node → I a u →
          ∃ a' u', (env.huntNode compile name rounds a m).run u = .ok (a', u') ∧ I a' u' := by
        rintro m a u hm ⟨hka, hu, hgives, hg⟩
        obtain ⟨x, hx, hflows⟩ := (hu.flowing.members hgives hm).flows
          (Option.map_eq_some_iff.2 ⟨b, hg.substitution i b hi, rfl⟩)
        have hless : env.reach r < rounds + (insert i.index W).card := by
          rw [Finset.card_insert_of_notMem hnew]
          omega
        obtain ⟨a', u', hr, hka', hu'⟩ := ih _ ⟨x, hx⟩ (hW.insert hi hg hx hflows) hless hka hu
        have hg' := (huntNode_evolves hv hr hu.flowing.wellFormed).2
        exact ⟨a', u', hr, hka', hu', hgives.grows hg', hg.trans hg'⟩
      have hroom : (insert i.index W).card ≤ r.size := by
        refine ht.card_le fun w hw => ?_
        rcases Finset.mem_insert.1 hw with rfl | hw
        · exact ⟨b, hvis.grows.substitution i b hi⟩
        · exact (hW.exists_of_mem w hw).imp fun a ha => hvis.grows.substitution _ a ha
      have hloop : env.nodes.length + r.size < rounds + 0 := by
        rw [Finset.card_insert_of_notMem hnew] at hroom
        unfold reach at hrounds
        omega
      obtain ⟨h', s', hfold, hk', hs', -⟩ :=
        Resolve.foldMembers_returns I hlen hstep ⟨hk, ht, hgives, hvis.grows⟩ (Nat.zero_le _) hloop
      exact ⟨h', s', (Resolve.run_bind_of hr).trans hfold, hk', hs'⟩

/-- The search of a node that a rule meets ends. -/
theorem searchNode_returns_grounded (hground : env.Grounded) (hn : ∃ x, s.substitutions.item? n = some x) (hfuel : f < fuel)
    (hs : env.Affords r f rest s) :
    ∃ found s', (env.searchNode compile fuel n name).run s = .ok (found, s') ∧ env.Affords r f rest s' := by
  have hrounds : env.reach r < fuel + (∅ : Finset Nat).card := Nat.lt_trans hs.reach_lt hfuel
  obtain ⟨h, t, hr, hk, ht⟩ := huntNode_returns_grounded hv ha hground ∅ hn .empty hfuel hrounds (.refl env.hunt) hs
  refine ⟨h.found, t, ?_, ht⟩
  rw [searchNode, Resolve.run_bind_of hr, hk.close rfl]
  rfl

/-- The search of all members of a node that a slot may hold ends. -/
theorem huntMembers_returns_grounded (hground : env.Grounded) {rounds : Nat} (hrounds : env.reach r < rounds)
    (hfuel : f < fuel) (hgives : s.Gives env key node) (hk : env.hunt.Keeps h) (hs : env.Affords r f rest s) :
    ∃ h' s', (Resolve.foldMembers (env.huntNode compile name rounds) rounds ⟨node, 0⟩ h).run s = .ok (h', s') ∧
      env.hunt.Keeps h' ∧ env.Affords r f rest s' := by
  have hlen : ∀ (a : Hunt) u, env.hunt.Keeps a ∧ env.Affords r f rest u ∧ u.Gives env key node →
      (u.cache.members node).length ≤ env.nodes.length + r.size :=
    fun _ _ hu => hu.2.1.length_members_le hu.2.2
  have hstep : ∀ m (a : Hunt) u, m ∈ u.cache.members node →
      env.hunt.Keeps a ∧ env.Affords r f rest u ∧ u.Gives env key node →
      ∃ a' u', (env.huntNode compile name rounds a m).run u = .ok (a', u') ∧
        env.hunt.Keeps a' ∧ env.Affords r f rest u' ∧ u'.Gives env key node := by
    rintro m a u hm ⟨hka, hu, hgives⟩
    obtain ⟨P, x, -, hx, -⟩ := hu.flowing.members hgives hm
    have hreach : env.reach r < rounds + (∅ : Finset Nat).card := hrounds
    obtain ⟨a', u', hr, hka', hu'⟩ := huntNode_returns_grounded hv ha hground ∅ ⟨x, hx⟩ .empty hfuel hreach hka hu
    exact ⟨a', u', hr, hka', hu', hgives.grows (huntNode_evolves hv hr hu.flowing.wellFormed).2⟩
  obtain ⟨h', s', hfold, hk', hs', -⟩ := Resolve.foldMembers_returns _ hlen hstep ⟨hk, hs, hgives⟩ (Nat.zero_le _)
    (length_nodes_lt_reach.trans hrounds)
  exact ⟨h', s', hfold, hk', hs'⟩

theorem searchMember_returns_grounded (hground : env.Grounded) (base : DeclId) (hfuel : f < fuel)
    (hs : env.Affords r f rest s) :
    ∃ found s', (env.searchMember compile fuel base name).run s = .ok (found, s') ∧ env.Affords r f rest s' := by
  obtain ⟨node, t, hr, ht, -, hgives⟩ := compile_returns_affords hv ha (.decl base) (Nat.zero_le _)
    (Nat.le_of_lt hfuel) hs
  obtain ⟨h, t', hfold, hk, ht'⟩ := huntMembers_returns_grounded hv ha hground (Nat.lt_trans ht.reach_lt hfuel) hfuel hgives
    (.refl env.hunt) ht
  refine ⟨h.found, t', ?_, ht'⟩
  rw [searchMember, huntMember, bind_assoc, Resolve.run_bind_of hr, Resolve.run_bind_of hfold, hk.close rfl]
  rfl

/-- The search of any node ends. A union is the node of its owner, and a substitution is searched through its members. -/
theorem searchAny_returns_grounded (hground : env.Grounded) (n : TypeNode) (hfuel : f + 1 = fuel) (hs : env.Affords r f rest s) :
    ∃ found s', (env.searchNode compile fuel n name).run s = .ok (found, s') ∧ env.Affords r f rest s' := by
  subst hfuel
  have hhunt : ∃ h s', (env.huntNode compile name (f + 1) env.hunt n).run s = .ok (h, s') ∧ env.hunt.Keeps h ∧
      env.Affords r f rest s' := by
    cases n with
    | leaf | global =>
      exact huntNode_returns_grounded hv ha hground ∅ ⟨_, rfl⟩ .empty (Nat.lt_succ_self f)
        (Nat.lt_succ_of_lt hs.reach_lt) (.refl env.hunt) hs
    | generic i =>
      obtain ⟨node, t, hr, ht, -, hgives⟩ := compile_returns_affords hv ha (.generic i) (Nat.zero_le _) (Nat.le_refl _) hs
      obtain ⟨h, s', hfold, hh⟩ :=
        huntMembers_returns_grounded hv ha hground ht.reach_lt (Nat.lt_succ_self f) hgives (.refl env.hunt) ht
      exact ⟨h, s', (Resolve.run_bind_of hr).trans hfold, hh⟩
    | union u =>
      by_cases hu : u.index < s.cache.unions.size
      · obtain ⟨key, howner⟩ := hs.flowing.wellFormed.owner u hu
        have hgives : s.Gives env key (some (.union u)) := fun t ht n hn =>
          (hs.flowing.cache t ht).node key n ((hs.flowing.wellFormed.owned u key howner).trans hn)
        exact huntMembers_returns_grounded hv ha hground hs.reach_lt (Nat.lt_succ_self f) hgives (.refl env.hunt) hs
      · -- a union that does not exist has no members
        have hnone : s.cache.members (some (.union u)) = [] := UnionArena.members_of_size_le (Nat.not_lt.1 hu)
        obtain ⟨rounds, rfl⟩ := Nat.exists_eq_succ_of_ne_zero (Nat.ne_of_gt (Nat.lt_of_le_of_lt (Nat.zero_le _) hs.reach_lt))
        exact ⟨env.hunt, s, Resolve.foldMembers_of_nil hnone, .refl _, hs⟩
  obtain ⟨h, s', hr, hk, hs'⟩ := hhunt
  refine ⟨h.found, s', ?_, hs'⟩
  rw [searchNode, Resolve.run_bind_of hr, hk.close rfl]
  rfl

end Searches

/-! ## Merges -/

theorem isTemplate_iff : isTemplate s n = true ↔ ∃ i ∈ s.substitutions.templates, n = .generic i := by
  cases n <;> simp [isTemplate, Substitutions.mem_templates]

theorem mergeBound_returns (s : Session) (target : SlotKey) (call : DeclId) (n : TypeNode) :
    ∃ s', (mergeBound target call n).run s = .ok ((), s') := by
  cases n with
  | generic i =>
    rw [mergeBound, Resolve.run_bind_of (a := s) (t := s) rfl]
    cases s.substitutions.rebind? i call with
    | none => exact ⟨_, rfl⟩
    | some bound => exact ⟨_, rfl⟩
  | _ => exact ⟨_, rfl⟩

/-- The session `t` of a merge that began in `s`: of the members `v` that were visited, the templates have been copied, and
nothing else. -/
structure Copying (env : Env) (s : Session) (target : SlotKey) (v : List TypeNode) (t : Session) : Prop where
  nodup : v.Nodup
  flowing : t.Flowing env
  grows : s.Grows {target} t
  types : ∀ i sub, t.substitutions.get? i = some sub → env.arena.AcyclicBelow sub.proto
  templates : t.substitutions.templates = s.substitutions.templates
  size : t.substitutions.size = s.substitutions.size + v.countP (isTemplate s)

namespace Copying

variable {v : List TypeNode} {call g : DeclId} {index : Nat}

/-- What was reserved for the step pays for the copies. -/
theorem affords {callee : DeclId} (h : env.Copying s target v t) (hs : env.Affords r f (.result callee index call :: rest) s) :
    env.Affords r f rest t := by
  refine hs.copied h.flowing h.grows h.types h.templates (h.size ▸ Nat.add_le_add_left ?_ _)
  have hsub : v.filter (isTemplate s) ⊆ s.substitutions.templates.map .generic := by
    intro n hn
    obtain ⟨i, hi, rfl⟩ := isTemplate_iff.1 (List.mem_filter.1 hn).2
    exact List.mem_map_of_mem hi
  have hle := (List.subperm_of_subset (h.nodup.filter _) hsub).length_le
  rwa [List.length_map, ← List.countP_eq_length_filter] at hle

theorem mergeBound (h : env.Copying s target v t) (htarget : s.substitutions.place? target = some P)
    (hD : ∀ x, env.Flows (.slot (.ret g index)) x → env.Flows P x)
    (hcopy : ∀ e ty, env.Flows (.slot (.ret g index)) (.inst ⟨e, ty, none⟩) → env.Flows P (.inst ⟨e, ty, some call⟩))
    (hmay : env.May t.substitutions (.ret g index) n) (hflat : n.isUnion = false) (hnot : n ∉ v) :
    ∃ t', (mergeBound target call n).run t = .ok ((), t') ∧ t.cache.members node <+: t'.cache.members node ∧
      env.Copying s target (v ++ [n]) t' := by
  obtain ⟨t', hr⟩ := mergeBound_returns t target call n
  have ht' := mergeBound_flows (h.grows.extends.place? htarget) hD hcopy hmay h.flowing hr
  have hg' := h.grows.trans (mergeBound_evolves hflat hr h.flowing.wellFormed).2
  have hnodup : (v ++ [n]).Nodup := h.nodup.append (by simp) (by simpa using hnot)
  refine ⟨t', hr, ?_⟩
  rcases mergeBound_ok hr with ⟨hother, rfl⟩ | ⟨i, e, ty, rfl, hi, rfl⟩
  · refine ⟨NodeCache.isPrefix_members_setNode .., hnodup, ht', hg', h.types, h.templates, ?_⟩
    have hnone : isTemplate s n = false := by
      rw [Bool.eq_false_iff, Ne, isTemplate_iff, ← h.templates, ← isTemplate_iff, hother]
      simp
    rw [List.countP_append, List.countP_singleton, hnone]
    exact h.size
  · refine ⟨NodeCache.isPrefix_members_setNode .., hnodup, ht', hg', fun j sub hj => ?_, ?_, ?_⟩
    · rcases Substitutions.get?_push_cases hj with hj | rfl
      · exact h.types j sub hj
      · exact h.types i ⟨e, ty, none⟩ hi
    · exact (Substitutions.templates_push _ _).trans (by simpa using h.templates)
    · have hone : isTemplate s (.generic i) = true := by
        refine isTemplate_iff.2 ⟨i, ?_, rfl⟩
        rw [← h.templates, Substitutions.mem_templates]
        exact Substitutions.isTemplate_iff.2 ⟨e, ty, hi⟩
      rw [List.countP_append, List.countP_singleton, hone]
      exact (Substitutions.size_push _ _).trans (by rw [h.size]; rfl)

end Copying

/-- The templates among the members of a result are copied, each once. -/
theorem mergeReturned_returns_affords {callee call g : DeclId} {index : Nat} {returned : Option TypeNode}
    (htarget : s.substitutions.place? target = some P) (hD : ∀ x, env.Flows (.slot (.ret g index)) x → env.Flows P x)
    (hcopy : ∀ e ty, env.Flows (.slot (.ret g index)) (.inst ⟨e, ty, none⟩) → env.Flows P (.inst ⟨e, ty, some call⟩))
    (hgives : s.Gives env (.ret g index) returned) (hholds : ∀ n, returned = some n → s.cache.unions.Holds n)
    (hfuel : f < fuel) (hs : env.Affords r f (.result callee index call :: rest) s) :
    ∃ s', (mergeReturned fuel target call returned).run s = .ok ((), s') ∧ env.Affords r f rest s' := by
  rw [mergeReturned, Resolve.run_bind_of (a := s) (t := s) rfl]
  split
  · have hlen : ∀ v (_ : Unit) t, env.Copying s target v t → (t.cache.members returned).Nodup ∧
        (t.cache.members returned).length ≤ env.nodes.length + r.size :=
      fun v _ t ht => ⟨NodeCache.nodup_members ht.flowing.wellFormed.distinct,
        (ht.affords hs).length_members_le (hgives.grows ht.grows)⟩
    have hround : ∀ n v (_ : Unit) t, n ∈ t.cache.members returned → n ∉ v → env.Copying s target v t →
        ∃ (u' : Unit) (t' : Session), (mergeBound target call n).run t = .ok (u', t') ∧
          t.cache.members returned <+: t'.cache.members returned ∧ env.Copying s target (v ++ [n]) t' := by
      rintro n v - t hn hnot ht
      have hmay := ht.flowing.members (hgives.grows ht.grows) hn
      exact ⟨(), ht.mergeBound htarget hD hcopy hmay (ht.flowing.wellFormed.members_flat n hn) hnot⟩
    have hstart : env.Copying s target [] s := ⟨List.nodup_nil, hs.flowing, .refl _ _, hs.types, rfl, rfl⟩
    obtain ⟨v, u, s', hr, hs'⟩ := Resolve.foldMembers_returns_visited (fun v _ t => env.Copying s target v t) hlen hround
      hstart List.nil_prefix (length_nodes_lt_reach.trans (hs.reach_lt.trans hfuel))
    exact ⟨s', hr, hs'.affords hs⟩
  · have hrun : (Resolve.mergeNode target returned).run s = .ok ((), s.setNode target returned) := rfl
    exact ⟨_, hrun, hs.drop.setNode (hs.flowing.setNode (hgives.feed rfl htarget hD) hholds) hholds⟩

/-- What can be called is a function literal or a documented function. -/
theorem of_callable?_eq_some {g : DeclId} {results : Option (List DeclId)} (hn : env.callable? n = some (g, results)) :
    n = .leaf g ∧ match results with
      | none => ∃ params returns isMethod, env.arena.kind? g = some (.function params returns isMethod)
      | some returns => ∃ params, env.arena.kind? g = some (.tyFunction params returns) := by
  cases n with
  | leaf d =>
    unfold callable? at hn
    dsimp only at hn
    split at hn
    · next hk =>
      cases hn
      exact ⟨rfl, _, _, _, hk⟩
    · next hk =>
      cases hn
      exact ⟨rfl, _, hk⟩
    · cases hn
  | _ => cases hn

section Steps

variable (hv : compile.Visiting) (hc : compile.Flowing env) (ha : compile.Answering env r fuel)
include hv hc ha

theorem mergeDecl_returns_affords {d : DeclId} (htarget : s.substitutions.place? target = some P)
    (hD : ∀ x, env.Flows (.slot (.decl d)) x → env.Flows P x) (hfuel : f ≤ fuel) (hs : env.Affords r f rest s) :
    ∃ s', (mergeDecl compile target d).run s = .ok ((), s') ∧ env.Affords r f rest s' ∧ s.Grows {target} s' := by
  obtain ⟨node, t, hr, ht, hvis, -⟩ := compile_returns_affords hv ha (.decl d) (Nat.zero_le _) hfuel hs
  have hrun : (mergeDecl compile target d).run s = .ok ((), t.setNode target node) := by
    rw [mergeDecl, Resolve.run_bind_of hr]
    rfl
  exact ⟨_, hrun, ht.setNode (mergeDecl_flows hv hc htarget hD hs.flowing hrun) hvis.holds,
    (mergeDecl_evolves hv hrun hs.flowing.wellFormed).2⟩

theorem forM_mergeDecl_returns_affords {ds : List DeclId} (htarget : s.substitutions.place? target = some P)
    (hD : ∀ d ∈ ds, ∀ x, env.Flows (.slot (.decl d)) x → env.Flows P x) (hfuel : f ≤ fuel) (hs : env.Affords r f rest s) :
    ∃ s', (ds.forM (mergeDecl compile target)).run s = .ok ((), s') ∧ env.Affords r f rest s' := by
  have hround : ∀ d ∈ ds, ∀ t, env.Affords r f rest t ∧ t.substitutions.place? target = some P →
      ∃ t', (mergeDecl compile target d).run t = .ok ((), t') ∧
        env.Affords r f rest t' ∧ t'.substitutions.place? target = some P := by
    rintro d hd t ⟨ht, hplace⟩
    obtain ⟨t', hr, ht', hg⟩ := mergeDecl_returns_affords hv hc ha hplace (hD d hd) hfuel ht
    exact ⟨t', hr, ht', hg.extends.place? hplace⟩
  obtain ⟨s', hr, hs', -⟩ := Resolve.forM_returns _ hround ⟨hs, htarget⟩
  exact ⟨s', hr, hs'⟩

theorem delegate_returns_affords (hground : env.Grounded) {metatable : DeclId}
    (hstep : .delegate metatable name ∈ env.rule key) (htarget : s.substitutions.place? target = some (.slot key))
    (hfuel : f < fuel) (hs : env.Affords r f rest s) :
    ∃ s', (runStep env compile fuel target (.delegate metatable name)).run s = .ok ((), s') ∧ env.Affords r f rest s' := by
  obtain ⟨node, t, hr, ht, hvis, hgives⟩ :=
    compile_returns_affords hv ha (.decl metatable) (Nat.zero_le _) (Nat.le_of_lt hfuel) hs
  let I : Session → Prop := fun u => env.Affords r f rest u ∧ u.Gives env (.decl metatable) node ∧
    u.substitutions.place? target = some (.slot key)
  have hround : ∀ m (_ : Unit) u, m ∈ u.cache.members node → I u → ∃ (a : Unit) (u' : Session), (do
      let found ← env.searchNode compile fuel m name
      found.forM (mergeDecl compile target) : Resolve Unit).run u = .ok (a, u') ∧ I u' := by
    rintro m - u hm ⟨hu, hgives, hplace⟩
    have hmay := hu.flowing.members hgives hm
    obtain ⟨x, hx, -⟩ := hmay.flows rfl
    obtain ⟨found, u₁, hf, hu₁⟩ := searchNode_returns_grounded hv ha hground ⟨x, hx⟩ hfuel hu
    have hg₁ := (searchNode_evolves hv hf hu.flowing.wellFormed).2
    obtain ⟨u', hm', hu'⟩ := forM_mergeDecl_returns_affords hv hc ha (hg₁.extends.place? hplace) (fun e he x hx => by
      obtain ⟨m', hm', hfinds⟩ := (searchNode_flows hv hc hmay hu.flowing hf).2 e he
      exact .found (.inr hstep) hm' hfinds hx) (Nat.le_of_lt hfuel) hu₁
    have hg' := (forM_mergeDecl_evolves hv hm' hu₁.flowing.wellFormed).2
    exact ⟨(), u', (Resolve.run_bind_of hf).trans hm', hu', (hgives.grows hg₁).grows hg',
      (hg₁.extends.trans hg'.extends).place? hplace⟩
  obtain ⟨_, t', hfold, ht', -⟩ := Resolve.foldMembers_returns (fun _ => I) (fun _ u hu => hu.1.length_members_le hu.2.1)
    hround ⟨ht, hgives, hvis.grows.extends.place? htarget⟩ (Nat.zero_le _)
    (length_nodes_lt_reach.trans (hs.reach_lt.trans hfuel))
  exact ⟨t', (Resolve.run_bind_of hr).trans hfold, ht'⟩

theorem mergeResult_returns_affords {callee call : DeclId} {index : Nat} (hstep : .result callee index call ∈ env.rule key)
    (hindex : index ≤ r.index) (htarget : s.substitutions.place? target = some (.slot key)) (hfuel : f < fuel)
    (hs : env.Affords r f (.result callee index call :: rest) s) :
    ∃ s', (mergeResult env compile fuel target callee index call).run s = .ok ((), s') ∧ env.Affords r f rest s' := by
  obtain ⟨node, t, hr, ht, hvis, hgives⟩ :=
    compile_returns_affords hv ha (.decl callee) (Nat.zero_le _) (Nat.le_of_lt hfuel) hs
  have hplace := hvis.grows.extends.place? htarget
  rw [mergeResult, Resolve.run_bind_of hr, Resolve.run_bind_of (a := t) (t := t) rfl]
  cases hfind : (t.cache.members node).findSome? env.callable? with
  | none => exact ⟨t, rfl, ht.drop⟩
  | some found =>
    obtain ⟨g, results⟩ := found
    obtain ⟨m, hm, hcallable⟩ := List.exists_of_findSome?_eq_some hfind
    obtain ⟨rfl, hk⟩ := of_callable?_eq_some hcallable
    have hcallee : env.Flows (.slot (.decl callee)) (.node (.leaf g)) := by
      obtain ⟨x, hx, hflows⟩ := (ht.flowing.members hgives hm).flows rfl
      cases hx
      exact hflows
    cases results with
    | none =>
      obtain ⟨params, returns, isMethod, hk⟩ := hk
      obtain ⟨returned, t', hr', ht', hvis', hgives'⟩ :=
        compile_returns_affords hv ha (.ret g index) hindex (Nat.le_of_lt hfuel) ht
      obtain ⟨s', hm, hs'⟩ := mergeReturned_returns_affords (hvis'.grows.extends.place? hplace)
        (fun x hx => .result hstep hcallee hk hx) (fun e ty hx => .copy hstep hcallee hk hx) hgives' hvis'.holds hfuel ht'
      exact ⟨s', (Resolve.run_bind_of hr').trans hm, hs'⟩
    | some returns =>
      obtain ⟨params, hk⟩ := hk
      cases index with
      | zero => exact ⟨t, rfl, ht.drop⟩
      | succ position =>
        cases hp : returns[position]? with
        | none => exact ⟨t, by simp only [hp]; rfl, ht.drop⟩
        | some d =>
          obtain ⟨s', hm, hs', -⟩ := mergeDecl_returns_affords hv hc ha hplace
            (fun x hx => .declared hstep hcallee hk hp hx) (Nat.le_of_lt hfuel) ht.drop
          exact ⟨s', by simp only [hp]; exact hm, hs'⟩

theorem runStep_returns_affords (hground : env.Grounded)
    (htypes : ∀ sub, .template sub ∈ env.rule key → env.arena.AcyclicBelow sub.proto) {st : Step}
    (hstep : st ∈ env.rule key) (hkey : key.result ≤ r.index) (hindex : env.arena.maxIndex ≤ r.index)
    (htarget : s.substitutions.place? target = some (.slot key)) (hfuel : f < fuel) (hs : env.Affords r f (st :: rest) s) :
    ∃ s', (runStep env compile fuel target st).run s = .ok ((), s') ∧ env.Affords r f rest s' := by
  cases st with
  | own n =>
    obtain ⟨d, -, hown⟩ := explains_of_mem_rule hstep
    have hflows := hs.flowing.flat htarget (Substitutions.item?_of_plain hown.plain) (.own hstep)
    exact ⟨_, rfl, hs.drop.setNode hflows (UnionArena.holds_some hown.not_union)⟩
  | merge d =>
    obtain ⟨s', hr, hs', -⟩ :=
      mergeDecl_returns_affords hv hc ha htarget (fun x hx => .merge hstep hx) (Nat.le_of_lt hfuel) hs.drop
    exact ⟨s', hr, hs'⟩
  | read base name =>
    obtain ⟨found, t, hf, ht⟩ := searchMember_returns_grounded hv ha hground base hfuel hs.drop
    have hg := (searchMember_evolves hv hf hs.flowing.wellFormed).2
    obtain ⟨s', hm, hs'⟩ := forM_mergeDecl_returns_affords hv hc ha (hg.extends.place? htarget) (fun e he x hx => by
      obtain ⟨m, hm, hfinds⟩ := (searchMember_flows hv hc hs.flowing hf).2 e he
      exact .found (.inl hstep) hm hfinds hx) (Nat.le_of_lt hfuel) ht
    exact ⟨s', (Resolve.run_bind_of hf).trans hm, hs'⟩
  | delegate metatable name => exact delegate_returns_affords hv hc ha hground hstep htarget hfuel hs.drop
  | result callee index call =>
    obtain ⟨args, hcalls, -, -⟩ := explains_of_mem_rule hstep
    exact mergeResult_returns_affords hv hc ha hstep (hcalls.index_le.trans (Nat.max_le.2 ⟨hkey, hindex⟩)) htarget hfuel hs
  | template sub =>
    have ht := hs.template (htypes sub hstep)
    have hitem : (s.withSubstitution sub).substitutions.item? (.generic (s.substitutions.push sub).1) = some (.inst sub) :=
      Option.map_eq_some_iff.2 ⟨sub, Substitutions.get?_push_self _ _, rfl⟩
    have hflows := ht.flowing.flat ((Substitutions.extends_push _ _).place? htarget) hitem (.template hstep)
    exact ⟨_, rfl, ht.setNode hflows (UnionArena.holds_some rfl)⟩

theorem steps_return_affords (hground : env.Grounded)
    (htypes : ∀ sub, .template sub ∈ env.rule key → env.arena.AcyclicBelow sub.proto) (hkey : key.result ≤ r.index)
    (hindex : env.arena.maxIndex ≤ r.index) (htarget : s.substitutions.place? target = some (.slot key)) (hfuel : f < fuel)
    (hs : env.Affords r f (env.rule key ++ rest) s) :
    ∃ s', ((env.rule key).forM (runStep env compile fuel target)).run s = .ok ((), s') ∧ env.Affords r f rest s' := by
  let I : List Step → Session → Prop := fun steps t => (∀ st ∈ steps, st ∈ env.rule key) ∧
    t.substitutions.place? target = some (.slot key) ∧ env.Affords r f (steps ++ rest) t
  have hround : ∀ st steps t, I (st :: steps) t →
      ∃ t', (runStep env compile fuel target st).run t = .ok ((), t') ∧ I steps t' := by
    rintro st steps t ⟨hsteps, hplace, ht⟩
    have hst := hsteps st (by simp)
    obtain ⟨t', hr, ht'⟩ := runStep_returns_affords hv hc ha hground htypes hst hkey hindex hplace hfuel ht
    exact ⟨t', hr, fun x hx => hsteps x (by simp [hx]),
      (runStep_evolves hv hst hr ht.flowing.wellFormed).2.extends.place? hplace, ht'⟩
  obtain ⟨s', hr, -, -, hs'⟩ := Resolve.forM_returns_rest I hround ⟨fun _ h => h, htarget, hs⟩
  exact ⟨s', hr, hs'⟩

/-! ## Substitutions -/

omit hv hc ha in
/-- How a substitution is resolved, if it is not cut off. -/
theorem runSubstitution_of_instantiate {i : GenericId} {sub : Substitution} {depth left : DepthCounter} {bindings : Bindings}
    {t' : Session} (hsub : s.substitutions.get? i = some sub) (he : s.depth.enter = (true, depth))
    (hb : (match sub.call with
      | some call => inferBindings env compile sub.func call
      | none => pure []).run { s with depth } = .ok (bindings, t))
    (hi : (instantiate env compile target (Signature.of? env.arena sub.func) bindings (env.arena.size + 1) sub.proto).run t =
      .ok ((), t')) (hleave : t'.depth.leave = .ok left) :
    (runSubstitution env compile target i).run s = .ok ((), { t' with depth := left }) := by
  have hset : (set { s with depth } : Resolve Unit).run s = .ok ((), { s with depth }) := rfl
  rw [runSubstitution, Resolve.run_bind_of (a := s) (t := s) rfl, hsub]
  simp only [he]
  rw [if_pos trivial, Resolve.run_bind_of hset]
  rcases sub with ⟨g, ty, _ | call⟩ <;>
  · dsimp only
    rw [Resolve.run_bind_of hb, Resolve.run_bind_of hi, Resolve.run_bind_of (a := t') (t := t') rfl, hleave]
    rfl

omit hc in
theorem inferBindings_returns_affords (g call : DeclId) (hfuel : f ≤ fuel) (hs : env.Affords r f rest s) :
    ∃ bindings s', (inferBindings env compile g call).run s = .ok (bindings, s') ∧ env.Affords r f rest s' := by
  have hround : ∀ source ∈ env.inferenceSources g call, ∀ t, env.Affords r f rest t → ∃ (b : Bindings) (t' : Session), (do
      let node ← compile (.decl source.2)
      let members := (← get).cache.members node
      return source.1.map fun param => (param, members) : Resolve Bindings).run t = .ok (b, t') ∧ env.Affords r f rest t' := by
    intro source _ t ht
    obtain ⟨node, t', hr, ht', -, -⟩ := compile_returns_affords hv ha (.decl source.2) (Nat.zero_le _) hfuel ht
    exact ⟨_, t', (Resolve.run_bind_of hr).trans rfl, ht'⟩
  obtain ⟨entries, t, hr, ht⟩ := Resolve.mapM_returns _ hround hs
  exact ⟨entries.flatten, t, Resolve.run_bind_of hr, ht⟩

omit hv hc ha in
/-- What is found for a type parameter is merged. -/
theorem mergeSupplied_returns_affords {sub : Substitution} {bindings : Bindings} (param : Atom)
    (htarget : s.substitutions.place? target = some (.inst sub)) (hbindings : s.Supplies env sub bindings)
    (hs : env.Affords r f rest s) :
    ∃ s', ((bindings.of param).forM fun n => Resolve.mergeNode target (some n)).run s = .ok ((), s') ∧
      env.Affords r f rest s' := by
  have hround : ∀ n ∈ bindings.of param, ∀ t, env.Affords r f rest t ∧ s.Grows {target} t →
      ∃ t', (Resolve.mergeNode target (some n)).run t = .ok ((), t') ∧ env.Affords r f rest t' ∧ s.Grows {target} t' := by
    rintro n hn t ⟨ht, hg⟩
    obtain ⟨ht', hg'⟩ := (hbindings.grows hg).setNode hn (hg.extends.place? htarget) ht.flowing
    obtain ⟨entry, hentry, hn⟩ := Bindings.exists_of_mem_of hn
    exact ⟨_, rfl, ht.setNode ht' (UnionArena.holds_some (hbindings.flat entry hentry n hn)), hg.trans hg'⟩
  obtain ⟨s', hr, hs', -⟩ := Resolve.forM_returns _ hround ⟨hs, .refl _ _⟩
  exact ⟨s', hr, hs'⟩

/-- The instantiation of a type ends. It is inside those of the types `W`, none of which stands below itself. -/
theorem instantiate_returns_affords {sub : Substitution} {sig? : Option Signature} {bindings : Bindings} {depth : Nat}
    {ty : DeclId} (W : Finset Nat) (htarget : s.substitutions.place? target = some (.inst sub))
    (hacyclic : env.arena.AcyclicBelow sub.proto) (hty : env.arena.Alternative sub.proto ty)
    (hW : ∀ w ∈ W, w < env.arena.size ∧ env.arena.Within sub.proto ⟨w⟩ ∧
      Relation.TransGen (fun x y => y ∈ env.arena.children x) ⟨w⟩ ty)
    (hdepth : env.arena.size < depth + W.card)
    (hbindings : s.Supplies env sub bindings) (hfuel : f ≤ fuel) (hs : env.Affords r f rest s) :
    ∃ s', (instantiate env compile target sig? bindings depth ty).run s = .ok ((), s') ∧ env.Affords r f rest s' := by
  have hcard : ∀ {V : Finset Nat}, (∀ w ∈ V, w < env.arena.size) → V.card ≤ env.arena.size := by
    intro V hV
    have hle := Finset.card_le_card fun w hw => Finset.mem_range.2 (hV w hw)
    rwa [Finset.card_range] at hle
  induction depth generalizing ty s W with
  | zero =>
    have := hcard fun w hw => (hW w hw).1
    omega
  | succ depth ih =>
    rw [instantiate]
    split
    · exact ⟨s, rfl, hs⟩
    · next kind hk =>
      split
      · next param _ => exact mergeSupplied_returns_affords param htarget hbindings hs
      · split
        · -- a union: none of the unions on the way is this one, because it would stand below itself
          next alternatives _ =>
          have hindex : ty.index < env.arena.size := Arena.index_lt_of_kind? hk
          have hnew : ty.index ∉ W := fun hmem => hacyclic ty hty.within (hW _ hmem).2.2
          have hinside : ∀ e ∈ alternatives, ∀ w ∈ insert ty.index W, w < env.arena.size ∧ env.arena.Within sub.proto ⟨w⟩ ∧
              Relation.TransGen (fun x y => y ∈ env.arena.children x) ⟨w⟩ e := by
            intro e he w hw
            have hchild : e ∈ env.arena.children ty := by rw [Arena.children, hk]; exact he
            rcases Finset.mem_insert.1 hw with rfl | hw
            · exact ⟨hindex, hty.within, .single hchild⟩
            · exact ⟨(hW w hw).1, (hW w hw).2.1, (hW w hw).2.2.tail hchild⟩
          have hround : ∀ e ∈ alternatives, ∀ t, env.Affords r f rest t ∧ s.Grows {target} t →
              ∃ t', (instantiate env compile target sig? bindings depth e).run t = .ok ((), t') ∧
                env.Affords r f rest t' ∧ s.Grows {target} t' := by
            rintro e he t ⟨ht, hg⟩
            obtain ⟨t', hr, ht'⟩ := ih _ (hg.extends.place? htarget) (hty.step hk he) (hinside e he)
              (by rw [Finset.card_insert_of_notMem hnew]; omega) (hbindings.grows hg) ht
            exact ⟨t', hr, ht', hg.trans (instantiate_evolves hv hbindings.flat hr ht.flowing.wellFormed).2⟩
          obtain ⟨s', hr, hs', -⟩ := Resolve.forM_returns _ hround ⟨hs, .refl _ _⟩
          exact ⟨s', hr, hs'⟩
        · obtain ⟨s', hr, hs', -⟩ := mergeDecl_returns_affords hv hc ha htarget (fun x hx => .part hty hx) hfuel hs
          exact ⟨s', hr, hs'⟩

theorem bindings_return_affords (sub : Substitution) (hfuel : f ≤ fuel) (hs : env.Affords r f rest s) :
    ∃ bindings t, (match sub.call with
      | some call => inferBindings env compile sub.func call
      | none => pure []).run s = .ok (bindings, t) ∧ env.Affords r f rest t ∧
      s.Grows ∅ t ∧ t.Supplies env sub bindings := by
  rcases sub with ⟨g, ty, _ | call⟩
  · exact ⟨[], s, rfl, hs, .refl _ _, by simp [Session.Supplies]⟩
  · obtain ⟨bindings, t, hr, ht⟩ := inferBindings_returns_affords hv ha g call hfuel hs
    exact ⟨bindings, t, hr, ht, ((inferBindings_evolves hv hs.flowing.wellFormed hr).1 hs.flowing.wellFormed).2,
      (inferBindings_flows hv hc hs.flowing hr).2⟩

theorem runSubstitution_returns_affords (i : GenericId) (hfuel : f ≤ fuel) (hs : env.Affords r f rest s) :
    ∃ s', (runSubstitution env compile (.generic i) i).run s = .ok ((), s') ∧ env.Affords r f rest s' := by
  cases hsub : s.substitutions.get? i with
  | none =>
    refine ⟨s, ?_, hs⟩
    rw [runSubstitution, Resolve.run_bind_of (a := s) (t := s) rfl, hsub]
    rfl
  | some sub =>
    cases he : s.depth.enter with
    | mk entered depth =>
      cases entered with
      | false =>
        refine ⟨s, ?_, hs⟩
        rw [runSubstitution, Resolve.run_bind_of (a := s) (t := s) rfl, hsub]
        simp only [he]
        rfl
      | true =>
        have hentered : env.Affords r f rest { s with depth } := hs.grows (hs.flowing.congr rfl rfl) rfl fun _ h => h
        obtain ⟨bindings, t, hr, ht, hg, hbindings⟩ := bindings_return_affords hv hc ha sub hfuel hentered
        have hit : t.substitutions.get? i = some sub := hg.substitution i sub hsub
        have hplace : t.substitutions.place? (.generic i) = some (.inst sub) := Option.map_eq_some_iff.2 ⟨sub, hit, rfl⟩
        obtain ⟨t', hi, ht'⟩ : ∃ t', (instantiate env compile (.generic i) (Signature.of? env.arena sub.func) bindings
            (env.arena.size + 1) sub.proto).run t = .ok ((), t') ∧ env.Affords r f rest t' :=
          instantiate_returns_affords hv hc ha ∅ hplace (ht.types i sub hit) .refl (by simp) (by simp) hbindings hfuel ht
        have hleave : t'.depth.leave = .ok s.depth := by
          rw [(instantiate_evolves hv hbindings.flat hi ht.flowing.wellFormed).2.depth, hg.depth]
          exact DepthCounter.leave_enter he
        exact ⟨_, runSubstitution_of_instantiate hsub he hr hi hleave, ht'.grows (ht'.flowing.congr rfl rfl) rfl fun _ h => h⟩

end Steps

/-- By induction on the fuel: each slot that a rule starts is one less that is absent. -/
theorem compileSlot_answering (hground : env.Grounded)
    (htypes : ∀ key sub, .template sub ∈ env.rule key → env.arena.AcyclicBelow sub.proto)
    (hindex : env.arena.maxIndex ≤ r.index) (fuel : Nat) : Compile.Answering env r fuel (env.compileSlot fuel) := by
  induction fuel with
  | zero =>
    intro key s rest f _ hfuel hs
    have := hs.fuel
    omega
  | succ fuel ih =>
    intro key s rest f hkey hfuel hs
    cases hslot : s.cache.slot? key with
    | some slot => exact ⟨_, _, compileSlot_of_slot hslot, hs.hit _ _⟩
    | none =>
      have hv := env.compileSlot_visits fuel
      have hc := env.compileSlot_flows fuel
      have hstart := hs.start hslot hkey (env.slotKind key)
      have hsteps : (∀ i, key ≠ .generic i) → ∃ t, ((env.rule key).forM (runStep env (env.compileSlot fuel) fuel key)).run
          (s.start key (env.slotKind key)) = .ok ((), t) ∧ env.Affords r f rest t := by
        intro hne
        have hplace : ∀ t : Substitutions, t.place? key = some (.slot key) := by
          intro t
          cases key with
          | generic i => exact absurd rfl (hne i)
          | _ => rfl
        by_cases hrule : env.rule key = []
        · rw [hrule] at hstart ⊢
          exact ⟨_, rfl, hstart⟩
        · -- a slot that has steps counts among the absent ones, and after the start it does not
          obtain ⟨st, hst⟩ := List.exists_mem_of_ne_nil _ hrule
          have hless := absent_start hslot (mem_slotsUpTo_of_mem_rule hst hkey) (env.slotKind key)
          have hpaid := hs.fuel
          have hinside : env.Affords r (f - 2) (env.rule key ++ rest) (s.start key (env.slotKind key)) :=
            { hstart with fuel := by omega }
          obtain ⟨t, hr, ht⟩ := steps_return_affords hv hc ih hground (htypes key) hkey hindex (hplace _) (by omega) hinside
          exact ⟨t, hr, ht.mono (Nat.sub_le _ _)⟩
      have hrun : ∃ t, (runRule env (env.compileSlot fuel) fuel key).run (s.start key (env.slotKind key)) = .ok ((), t) ∧
          env.Affords r f rest t := by
        cases key with
        | decl d => exact hsteps (by simp)
        | ret g index => exact hsteps (by simp)
        | generic i => exact runSubstitution_returns_affords hv hc ih i (Nat.le_of_succ_le_succ hfuel) hstart
      obtain ⟨t, hr, ht⟩ := hrun
      exact ⟨_, _, compileSlot_of_rule hslot hr, ht.finish _⟩

end Env

end LuaInfer
