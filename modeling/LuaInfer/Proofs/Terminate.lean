import LuaInfer.Proofs.Balance
import LuaInfer.Proofs.Sound
import Mathlib.Data.Finset.Card
import Mathlib.Data.Finset.Prod
/-!
# Resolution ends

In a program without type parameters every query returns, whatever cycles the program has. Three things
bound a query. Slots under way inside one another are different slots, and only finitely many have a rule
(`Env.slotsUpTo`): an index of a result that a rule asks for is at most its own or one that some declaration
selects. The search of a class is bounded by its depth limit (`Env.huntClass_returns`). A loop over the members
of a union that grows on the way ends because members are distinct and come from a finite list (`Env.nodes`).
The climb to the enclosing function ends because parents form no cycle (`Arena.ancestor?_eq_none`).
`Session.askAll_returns` puts these together for all queries from a fresh session on.
-/

namespace LuaInfer

namespace Resolve

variable {α σ : Type} {s : Session}

/-- A loop over a list returns if each round does, from what the rounds before it keep. -/
theorem forM_returns {f : α → Resolve Unit} (I : Session → Prop) {xs : List α}
    (hstep : ∀ x ∈ xs, ∀ t, I t → ∃ t', (f x).run t = .ok ((), t') ∧ I t') (hs : I s) :
    ∃ s', (xs.forM f).run s = .ok ((), s') ∧ I s' := by
  induction xs generalizing s with
  | nil => exact ⟨s, rfl, hs⟩
  | cons x xs ih =>
    obtain ⟨t, hx, ht⟩ := hstep x (by simp) s hs
    obtain ⟨s', hxs, hs'⟩ := ih (fun y hy => hstep y (by simp [hy])) ht
    exact ⟨s', (run_bind_of hx).trans hxs, hs'⟩

/-- A loop over the members of a node ends if their number stays bounded, although they may become more
while it runs. -/
theorem foldMembers_returns {f : σ → TypeNode → Resolve σ} (I : σ → Session → Prop) {node : Option TypeNode}
    {bound fuel position : Nat} {acc : σ} (hlen : ∀ a t, I a t → (t.cache.members node).length ≤ bound)
    (hstep : ∀ n a t, n ∈ t.cache.members node → I a t → ∃ a' t', (f a n).run t = .ok (a', t') ∧ I a' t')
    (hs : I acc s) (hpos : position ≤ bound) (hfuel : bound < fuel + position) :
    ∃ acc' s', (foldMembers f fuel ⟨node, position⟩ acc).run s = .ok (acc', s') ∧ I acc' s' := by
  induction fuel generalizing position acc s with
  | zero => omega
  | succ fuel ih =>
    rw [foldMembers, run_bind_of (a := s) (t := s) rfl]
    cases hn : (s.cache.members node)[position]? with
    | none =>
      simp only [Cursor.next?, hn, Option.map_none]
      exact ⟨acc, s, rfl, hs⟩
    | some n =>
      simp only [Cursor.next?, hn, Option.map_some]
      have hlt : position < (s.cache.members node).length := (List.getElem?_eq_some_iff.1 hn).1
      have hle := hlen acc s hs
      obtain ⟨a, t, hf, ht⟩ := hstep n acc s (List.mem_of_getElem? hn) hs
      rw [run_bind_of hf]
      exact ih ht (by omega) (by omega)

end Resolve

/-! ## Parents -/

namespace Arena

variable {a : Arena} {d e : DeclId}

/-- No declaration stands in itself, at any distance. -/
def ParentsAcyclic (a : Arena) : Prop := ∀ d, ¬ Relation.TransGen (fun x y => a.parent? x = some y) d d

/-- What is reached by so many steps from a declaration to its parent. -/
def ancestor? (a : Arena) : Nat → DeclId → Option DeclId
  | 0, d => some d
  | n + 1, d => (a.parent? d).bind (a.ancestor? n)

theorem ancestor?_add (m n : Nat) (d : DeclId) : a.ancestor? (m + n) d = (a.ancestor? m d).bind (a.ancestor? n) := by
  induction m generalizing d with
  | zero => rw [Nat.zero_add]; rfl
  | succ m ih =>
    rw [Nat.succ_add, ancestor?, ancestor?]
    cases a.parent? d with
    | none => rfl
    | some p => exact ih p

theorem ancestor?_eq_none_of_le {m n : Nat} (hmn : m ≤ n) (h : a.ancestor? m d = none) : a.ancestor? n d = none := by
  obtain ⟨k, rfl⟩ := Nat.exists_eq_add_of_le hmn
  rw [ancestor?_add, h]
  rfl

theorem transGen_iff_ancestor? :
    Relation.TransGen (fun x y => a.parent? x = some y) d e ↔ ∃ n, a.ancestor? (n + 1) d = some e := by
  constructor
  · intro h
    induction h with
    | single hp => exact ⟨0, by rw [ancestor?, hp]; rfl⟩
    | tail _ hp ih =>
      obtain ⟨n, hn⟩ := ih
      refine ⟨n + 1, ?_⟩
      rw [ancestor?_add (n + 1) 1, hn]
      simp [ancestor?, hp]
  · rintro ⟨n, hn⟩
    induction n generalizing d with
    | zero =>
      obtain ⟨p, hp, he⟩ := Option.bind_eq_some_iff.1 hn
      cases he
      exact .single hp
    | succ n ih =>
      obtain ⟨p, hp, hn⟩ := Option.bind_eq_some_iff.1 hn
      exact .head hp (ih hn)

/-- A chain of parents without a cycle passes no declaration twice, so it is no longer than the arena. -/
theorem ancestor?_eq_none (h : a.ParentsAcyclic) (d : DeclId) : a.ancestor? (a.size + 1) d = none := by
  refine Option.eq_none_iff_forall_ne_some.2 fun e he => ?_
  have hstage : ∀ i ≤ a.size, ∃ x, a.ancestor? i d = some x ∧ x.index < a.size := by
    intro i hi
    obtain ⟨k, hk⟩ := Nat.exists_eq_add_of_le hi
    rw [show a.size + 1 = i + (k + 1) by omega, ancestor?_add] at he
    obtain ⟨x, hx, hup⟩ := Option.bind_eq_some_iff.1 he
    obtain ⟨p, hp, -⟩ := Option.bind_eq_some_iff.1 hup
    obtain ⟨decl, hdecl, -⟩ := Option.bind_eq_some_iff.1 hp
    exact ⟨x, hx, (Array.getElem?_eq_some_iff.1 hdecl).1⟩
  choose x hx hlt using hstage
  -- `size + 1` declarations of an arena of that size are not all different
  have hnot : ¬ Function.Injective fun i : Fin (a.size + 1) =>
      (⟨(x i (Nat.le_of_lt_succ i.2)).index, hlt i _⟩ : Fin a.size) := by
    intro hinj
    have hcard := Fintype.card_le_of_injective _ hinj
    rw [Fintype.card_fin, Fintype.card_fin] at hcard
    omega
  refine hnot fun i j hij => ?_
  have heq : x i (Nat.le_of_lt_succ i.2) = x j (Nat.le_of_lt_succ j.2) := by
    have := congrArg Fin.val hij
    cases hi : x i (Nat.le_of_lt_succ i.2)
    cases hj : x j (Nat.le_of_lt_succ j.2)
    simp_all
  have hcycle : ∀ m n (hm : m ≤ a.size) (hn : n ≤ a.size), x m hm = x n hn → ¬ m < n := by
    intro m n hm hn hxy hmn
    obtain ⟨k, rfl⟩ := Nat.exists_eq_add_of_lt hmn
    have hup : (a.ancestor? m d).bind (a.ancestor? (k + 1)) = some (x (m + k + 1) hn) :=
      (ancestor?_add m (k + 1) d).symm.trans (hx (m + k + 1) hn)
    rw [hx m hm] at hup
    exact h (x m hm) (transGen_iff_ancestor?.2 ⟨k, hup.trans (congrArg some hxy.symm)⟩)
  have hle := hcycle _ _ _ _ heq
  have hge := hcycle _ _ _ _ heq.symm
  exact Fin.ext (by omega)

theorem parentsAcyclic_iff : a.ParentsAcyclic ↔ ∀ i < a.size, a.ancestor? (a.size + 1) ⟨i⟩ = none := by
  refine ⟨fun h i _ => ancestor?_eq_none h ⟨i⟩, fun h d hd => ?_⟩
  obtain ⟨n, hn⟩ := transGen_iff_ancestor?.1 hd
  have hround : ∀ m, a.ancestor? (m * (n + 1)) d = some d := by
    intro m
    induction m with
    | zero => rw [Nat.zero_mul]; rfl
    | succ m ih => rw [Nat.succ_mul, ancestor?_add, ih]; exact hn
  have hindex : d.index < a.size := by
    obtain ⟨p, hp, -⟩ := Option.bind_eq_some_iff.1 hn
    obtain ⟨decl, hdecl, -⟩ := Option.bind_eq_some_iff.1 hp
    exact (Array.getElem?_eq_some_iff.1 hdecl).1
  have hend := ancestor?_eq_none_of_le (Nat.le_mul_of_pos_right (a.size + 1) (Nat.succ_pos n)) (h d.index hindex)
  rw [hround] at hend
  cases hend

instance (a : Arena) : Decidable a.ParentsAcyclic := decidable_of_iff _ parentsAcyclic_iff.symm

end Arena

/-! ## Nodes -/

namespace Arena

variable {a : Arena} {d : DeclId}

/-- A fold that collects the largest selected index reaches its start and every index on the way. -/
theorem le_foldl_select (decls : List Decl) (m : Nat) :
    m ≤ decls.foldl (fun n decl => match decl.kind with | .select _ index => max n index | _ => n) m ∧
    ∀ decl ∈ decls, ∀ c index, decl.kind = .select c index →
      index ≤ decls.foldl (fun n decl => match decl.kind with | .select _ index => max n index | _ => n) m := by
  induction decls generalizing m with
  | nil => simp
  | cons first rest ih =>
    rw [List.foldl_cons]
    obtain ⟨hstart, hrest⟩ := ih (match first.kind with | .select _ index => max m index | _ => m)
    refine ⟨Nat.le_trans ?_ hstart, fun decl hdecl c index hk => ?_⟩
    · split
      · exact Nat.le_max_left _ _
      · exact Nat.le_refl _
    · rcases List.mem_cons.1 hdecl with rfl | hdecl
      · refine Nat.le_trans ?_ hstart
        rw [hk]
        exact Nat.le_max_right _ _
      · exact hrest decl hdecl c index hk

theorem one_le_maxIndex (a : Arena) : 1 ≤ a.maxIndex := by
  rw [maxIndex, ← Array.foldl_toList]
  exact (le_foldl_select a.decls.toList 1).1

theorem index_le_maxIndex {c : DeclId} {index : Nat} (h : a.kind? d = some (.select c index)) : index ≤ a.maxIndex := by
  obtain ⟨decl, hdecl, hk⟩ := exists_decl_of_kind? h
  rw [maxIndex, ← Array.foldl_toList]
  exact (le_foldl_select a.decls.toList 1).2 decl (Array.mem_toList_iff.2 hdecl) c index hk

theorem index_lt_of_decl? {decl : Decl} (h : a.decl? d = some decl) : d.index < a.size :=
  (Array.getElem?_eq_some_iff.1 h).1

end Arena

theorem Registry.index_lt_of_get? {r : Registry} {category : Category} {name : Atom} {g : GlobalId}
    (h : r.get? category name = some g) : g.index < r.size := by
  obtain ⟨e, he, -⟩ := r.rooted category name g h
  exact (Array.getElem?_eq_some_iff.1 he).1

namespace Env

variable {env : Env} {compile : Compile} {N fuel : Nat} {target key : SlotKey} {s t t' : Session}
  {node : Option TypeNode} {n : TypeNode} {name : Atom} {h : Hunt}

/-- All nodes that some declaration has by itself: the declarations, the globals they stand for, and the
documented types. -/
def nodes (env : Env) : List TypeNode :=
  (List.range env.arena.size).map (fun i => .leaf ⟨i⟩) ++
    (List.range env.arena.size).filterMap (fun i => (env.arena.global? ⟨i⟩).map .global) ++
    (List.range env.globals.size).map fun i => .global ⟨i⟩

theorem length_nodes_le (env : Env) : env.nodes.length ≤ 2 * env.arena.size + env.globals.size := by
  have h := List.length_filterMap_le (fun i => (env.arena.global? ⟨i⟩).map TypeNode.global) (List.range env.arena.size)
  simp only [nodes, List.length_append, List.length_map, List.length_range] at h ⊢
  omega

theorem Owns.mem_nodes {d : DeclId} (h : env.Owns d n) : n ∈ env.nodes := by
  simp only [nodes, List.mem_append, List.mem_map, List.mem_filterMap, List.mem_range, Option.map_eq_some_iff]
  cases h with
  | @link g hg =>
    obtain ⟨decl, hd, -⟩ := Option.bind_eq_some_iff.1 hg
    exact .inl (.inr ⟨d.index, Arena.index_lt_of_decl? hd, g, hg, rfl⟩)
  | leaf hk =>
    obtain ⟨decl, hd, -⟩ := Option.map_eq_some_iff.1 hk
    exact .inl (.inl ⟨d.index, Arena.index_lt_of_decl? hd, rfl⟩)
  | @name _ g _ hg => exact .inr ⟨g.index, Registry.index_lt_of_get? hg, rfl⟩

theorem isPlain_of_mem_nodes (h : n ∈ env.nodes) : n.IsPlain := by
  simp only [nodes, List.mem_append, List.mem_map, List.mem_filterMap, Option.map_eq_some_iff] at h
  rcases h with (⟨_, -, rfl⟩ | ⟨_, -, _, -, rfl⟩) | ⟨_, -, rfl⟩ <;> trivial

/-- Every slot may hold any of these nodes. -/
def Mentions (env : Env) (_ : SlotKey) (n : TypeNode) : Prop := n ∈ env.nodes

/-- A union, or one of the nodes. -/
def IsHandle (env : Env) (node : Option TypeNode) : Prop := ∀ n, node = some n → n.isUnion = true ∨ n ∈ env.nodes

theorem isHandle_of_visits (hs : t'.Sound env.Mentions) (hv : Session.Visits key t node t') : env.IsHandle node := by
  intro n hn
  have hj := hs.justified hv n hn
  cases n with
  | union u => exact .inl rfl
  | _ => exact .inr hj

/-- Members arrive, but they are always among the nodes. -/
theorem mem_nodes_of_mem_members (hs : s.Sound env.Mentions) (hnode : env.IsHandle node)
    (hn : n ∈ s.cache.members node) : n ∈ env.nodes := by
  rcases node with _ | m
  · cases hn
  · cases m with
    | union u =>
      obtain ⟨owner, ho⟩ := hs.wellFormed.owner u (UnionArena.lt_of_mem hn)
      exact hs.cache.member u owner ho n hn
    | _ =>
      cases List.mem_singleton.1 hn
      exact (hnode _ rfl).resolve_left (by simp [TypeNode.isUnion])

theorem length_members_le (hs : s.Sound env.Mentions) (hnode : env.IsHandle node) :
    (s.cache.members node).length ≤ env.nodes.length := by
  have hdistinct : (s.cache.members node).Nodup := by
    rcases node with _ | m
    · exact List.nodup_nil
    · exact hs.wellFormed.flatten_distinct
  exact (List.subperm_of_subset hdistinct fun n hn => mem_nodes_of_mem_members hs hnode hn).length_le

/-! ## Slots -/

/-- The slots that may have a rule, for results up to the index `N`. -/
def slotsUpTo (env : Env) (N : Nat) : Finset SlotKey :=
  (Finset.range env.arena.size).image (fun i => .decl ⟨i⟩) ∪
    (Finset.range env.arena.size ×ˢ Finset.range (N + 1)).image fun p => .ret ⟨p.1⟩ p.2

theorem card_slotsUpTo_le (env : Env) (N : Nat) : (env.slotsUpTo N).card ≤ env.arena.size * (N + 2) := by
  calc (env.slotsUpTo N).card
      ≤ env.arena.size + env.arena.size * (N + 1) := by
        refine (Finset.card_union_le _ _).trans (Nat.add_le_add ?_ ?_)
        · exact Finset.card_image_le.trans (by simp)
        · exact Finset.card_image_le.trans (by simp)
    _ = env.arena.size * (N + 2) := by rw [Nat.mul_succ _ (N + 1), Nat.add_comm]

/-- Without a declaration there are neither annotations nor returns. -/
theorem index_lt_of_mem_returnRule {f : DeclId} {index : Nat} {st : Step} (h : st ∈ env.returnRule f index) :
    f.index < env.arena.size := by
  by_contra hf
  have hdecl : env.arena.decl? f = none := Array.getElem?_eq_none_iff.2 (Nat.le_of_not_lt hf)
  have hrule : env.returnRule f index = [] := by
    simp [returnRule, returnTypes, returnedSteps, Arena.docs, Arena.kind?, hdecl]
  rw [hrule] at h
  cases h

theorem mem_slotsUpTo_of_mem_rule {st : Step} (h : st ∈ env.rule key) (hN : key.result ≤ N) : key ∈ env.slotsUpTo N := by
  simp only [slotsUpTo, Finset.mem_union, Finset.mem_image, Finset.mem_product, Finset.mem_range]
  cases key with
  | decl d => exact .inl ⟨d.index, index_lt_of_mem_declRule h, rfl⟩
  | ret f index => exact .inr ⟨(f.index, index), ⟨index_lt_of_mem_returnRule h, Nat.lt_succ_of_le hN⟩, rfl⟩
  | generic i => cases h

/-- Number of slots that may have a rule and are absent. -/
def absent (env : Env) (N : Nat) (s : Session) : Nat := ((env.slotsUpTo N).filter fun k => s.cache.slot? k = none).card

theorem absent_mono (h : ∀ k, t.cache.slot? k = none → s.cache.slot? k = none) : env.absent N t ≤ env.absent N s := by
  refine Finset.card_le_card fun k hk => ?_
  rw [Finset.mem_filter] at hk ⊢
  exact ⟨hk.1, h k hk.2⟩

theorem absent_start (habs : s.cache.slot? key = none) (hkey : key ∈ env.slotsUpTo N) (kind : String) :
    env.absent N (s.start key kind) < env.absent N s := by
  refine Finset.card_lt_card (Finset.ssubset_iff_of_subset ?_ |>.2 ⟨key, ?_, ?_⟩)
  · intro k hk
    rw [Finset.mem_filter, Session.slot?_start] at hk
    rw [Finset.mem_filter]
    refine ⟨hk.1, ?_⟩
    by_cases heq : k = key
    · rw [heq]; exact habs
    · rw [if_neg heq] at hk; exact hk.2
  · rw [Finset.mem_filter]
    exact ⟨hkey, habs⟩
  · rw [Finset.mem_filter, Session.slot?_start]
    simp

/-- A session with fuel for the absent slots and for a loop over all nodes. -/
structure Ready (env : Env) (N fuel : Nat) (s : Session) : Prop where
  sound : s.Sound env.Mentions
  fuel : env.absent N s + env.nodes.length < fuel

/-- Each slot up to the index is resolved, and the session stays ready. -/
def Returning (env : Env) (N fuel : Nat) (compile : Compile) : Prop :=
  ∀ key t, key.result ≤ N → env.Ready N fuel t → ∃ node t', (compile key).run t = .ok (node, t') ∧ env.Ready N fuel t'

theorem Ready.grows {T : Set SlotKey} (h : env.Ready N fuel t) (hs : t'.Sound env.Mentions) (hg : t.Grows T t') :
    env.Ready N fuel t' :=
  ⟨hs, Nat.lt_of_le_of_lt (Nat.add_le_add_right (absent_mono fun _ => hg.cache.exists_slot) _) h.fuel⟩

theorem Ready.own (h : env.Ready N fuel t) (hn : n ∈ env.nodes) (hu : n.isUnion = false) :
    env.Ready N fuel (t.setNode target (some n)) :=
  h.grows (h.sound.own hu hn) (Session.Evolves.setNode_flat hu h.sound.wellFormed).2

theorem Ready.merge {d : Session} (h : env.Ready N fuel t) (hv : Session.Visits key d node t) :
    env.Ready N fuel (t.setNode target node) :=
  h.grows (h.sound.merge hv fun _ hn => hn) (Session.Evolves.setNode (fun _ => hv.holds) hv.wellFormed).2

/-! ## Searches -/

theorem huntNode_returns (hn : n.IsPlain) (hk : env.hunt.Keeps h) :
    ∃ h', (env.huntNode compile name (fuel + 1) h n).run t = .ok (h', t) ∧ env.hunt.Keeps h' := by
  cases n with
  | leaf d => exact ⟨_, rfl, hk.add _⟩
  | global g =>
    have hsearch : env.hunt.Returned (env.huntGlobal name (env.huntClass name) g h) :=
      huntGlobal_returns (fun g a ha => huntClass_returns g ha) g hk
    obtain ⟨h', hr, hk'⟩ := hsearch
    refine ⟨h', ?_, hk'⟩
    rw [huntNode, hr]
    rfl
  | generic i => cases hn
  | union u => cases hn

/-- The search of a node whose members are known leaves the session as it is. -/
theorem huntMembers_returns {rounds : Nat} (ht : t.Sound env.Mentions) (hnode : env.IsHandle node)
    (hrounds : env.nodes.length < rounds) (hk : env.hunt.Keeps h) :
    ∃ h', (Resolve.foldMembers (env.huntNode compile name (fuel + 1)) rounds ⟨node, 0⟩ h).run t = .ok (h', t) ∧
      env.hunt.Keeps h' := by
  have hlen : ∀ a s, env.hunt.Keeps a ∧ s = t → (s.cache.members node).length ≤ env.nodes.length := by
    rintro a s ⟨-, rfl⟩
    exact length_members_le ht hnode
  have hstep : ∀ n a s, n ∈ s.cache.members node → env.hunt.Keeps a ∧ s = t →
      ∃ a' s', (env.huntNode compile name (fuel + 1) a n).run s = .ok (a', s') ∧ env.hunt.Keeps a' ∧ s' = t := by
    rintro n a s hn ⟨ha, rfl⟩
    obtain ⟨a', hr, ha'⟩ := huntNode_returns (isPlain_of_mem_nodes (mem_nodes_of_mem_members ht hnode hn)) ha
    exact ⟨a', s, hr, ha', rfl⟩
  obtain ⟨h', s, hr, hk', rfl⟩ := Resolve.foldMembers_returns _ hlen hstep ⟨hk, rfl⟩ (Nat.zero_le _) hrounds
  exact ⟨h', hr, hk'⟩

theorem searchNode_returns (hn : n.IsPlain) (hfuel : 0 < fuel) :
    ∃ found, (env.searchNode compile fuel n name).run t = .ok (found, t) := by
  obtain ⟨rest, rfl⟩ := Nat.exists_eq_succ_of_ne_zero (Nat.ne_of_gt hfuel)
  obtain ⟨h, hr, hk⟩ := huntNode_returns hn (.refl env.hunt)
  refine ⟨h.found, ?_⟩
  rw [searchNode, Resolve.run_bind_of hr, hk.close rfl]
  rfl

/-! ## Steps -/

/-- The index of a result that a slot takes is its own, or one that a declaration selects, or less. -/
theorem Calls.index_le {c : DeclId} {index : Nat} (h : env.Calls key c index) :
    index ≤ max key.result env.arena.maxIndex := by
  cases h with
  | call => exact Nat.le_trans env.arena.one_le_maxIndex (Nat.le_max_right _ _)
  | select hk => exact Nat.le_trans (Arena.index_le_maxIndex hk) (Nat.le_max_right _ _)
  | returned _ _ => exact Nat.le_trans env.arena.one_le_maxIndex (Nat.le_max_right _ _)
  | spread _ _ _ => exact Nat.le_trans (Nat.sub_le _ _) (Nat.le_max_left _ _)

section Compile

variable (hv : compile.Visiting) (hc : env.Returning N fuel compile)
include hv hc

theorem compile_returns (key : SlotKey) (hkey : key.result ≤ N) (ht : env.Ready N fuel t) :
    ∃ node t', (compile key).run t = .ok (node, t') ∧ env.Ready N fuel t' ∧ Session.Visits key t node t' := by
  obtain ⟨node, t', hr, ht'⟩ := hc key t hkey ht
  exact ⟨node, t', hr, ht', hv _ _ _ _ ht.sound.wellFormed hr⟩

theorem searchMember_returns (base : DeclId) (ht : env.Ready N fuel t) :
    ∃ found t', (env.searchMember compile fuel base name).run t = .ok (found, t') ∧ env.Ready N fuel t' := by
  obtain ⟨node, t', hr, ht', hvis⟩ := compile_returns hv hc (.decl base) (Nat.zero_le _) ht
  have hfuel : env.nodes.length < fuel := by
    have := ht.fuel
    omega
  obtain ⟨rest, rfl⟩ := Nat.exists_eq_succ_of_ne_zero (Nat.ne_of_gt (Nat.lt_of_le_of_lt (Nat.zero_le _) hfuel))
  obtain ⟨h, hh, hk⟩ := huntMembers_returns ht'.sound (isHandle_of_visits ht'.sound hvis) hfuel (.refl env.hunt)
  refine ⟨h.found, t', ?_, ht'⟩
  rw [searchMember, huntMember, bind_assoc, Resolve.run_bind_of hr, Resolve.run_bind_of hh, hk.close rfl]
  rfl

/-- Any node can be searched: a substitution has no members, and those of a union are known. -/
theorem searchAny_returns (n : TypeNode) (ht : env.Ready N fuel t) (hfuel : env.nodes.length + 1 < fuel) :
    ∃ found t', (env.searchNode compile fuel n name).run t = .ok (found, t') ∧ env.Ready N fuel t' := by
  obtain ⟨rest, rfl⟩ : ∃ rest, fuel = rest + 1 + 1 := ⟨fuel - 2, by omega⟩
  have hmembers : ∀ {node : Option TypeNode} {u : Session}, u.Sound env.Mentions → env.IsHandle node →
      ∃ h', (Resolve.foldMembers (env.huntNode compile name (rest + 1)) (rest + 1) ⟨node, 0⟩ env.hunt).run u =
        .ok (h', u) ∧ env.hunt.Keeps h' :=
    fun hu hnode => huntMembers_returns hu hnode (by omega) (.refl env.hunt)
  cases n with
  | leaf d =>
    obtain ⟨found, hr⟩ := searchNode_returns (n := .leaf d) trivial (Nat.succ_pos _)
    exact ⟨found, t, hr, ht⟩
  | global g =>
    obtain ⟨found, hr⟩ := searchNode_returns (n := .global g) trivial (Nat.succ_pos _)
    exact ⟨found, t, hr, ht⟩
  | generic i =>
    obtain ⟨node, t', hr, ht', hvis⟩ := compile_returns hv hc (.generic i) (Nat.zero_le _) ht
    obtain ⟨h, hh, hk⟩ := hmembers ht'.sound (isHandle_of_visits ht'.sound hvis)
    refine ⟨h.found, t', ?_, ht'⟩
    rw [searchNode, huntNode, bind_assoc, Resolve.run_bind_of hr, Resolve.run_bind_of hh, hk.close rfl]
    rfl
  | union u =>
    have hnode : env.IsHandle (some (.union u)) := fun n hn => by cases hn; exact .inl rfl
    obtain ⟨h, hh, hk⟩ := hmembers ht.sound hnode
    refine ⟨h.found, t, ?_, ht⟩
    rw [searchNode, huntNode, Resolve.run_bind_of hh, hk.close rfl]
    rfl

theorem mergeDecl_returns (d : DeclId) (ht : env.Ready N fuel t) :
    ∃ t', (mergeDecl compile target d).run t = .ok ((), t') ∧ env.Ready N fuel t' := by
  obtain ⟨node, t', hr, ht', hvis⟩ := compile_returns hv hc (.decl d) (Nat.zero_le _) ht
  refine ⟨t'.setNode target node, ?_, ht'.merge hvis⟩
  rw [mergeDecl, Resolve.run_bind_of hr]
  rfl

theorem forM_mergeDecl_returns (ds : List DeclId) (ht : env.Ready N fuel t) :
    ∃ t', (ds.forM (mergeDecl compile target)).run t = .ok ((), t') ∧ env.Ready N fuel t' :=
  Resolve.forM_returns (env.Ready N fuel) (fun d _ _ hu => mergeDecl_returns hv hc d hu) ht

theorem delegate_returns (metatable : DeclId) (ht : env.Ready N fuel t) :
    ∃ t', (runStep env compile fuel target (.delegate metatable name)).run t = .ok ((), t') ∧ env.Ready N fuel t' := by
  obtain ⟨node, t₁, hr, ht₁, hvis⟩ := compile_returns hv hc (.decl metatable) (Nat.zero_le _) ht
  have hnode : env.IsHandle node := isHandle_of_visits ht₁.sound hvis
  have hlen : ∀ (_ : Unit) u, env.Ready N fuel u → (u.cache.members node).length ≤ env.nodes.length :=
    fun _ u hu => length_members_le hu.sound hnode
  have hstep : ∀ n (_ : Unit) u, n ∈ u.cache.members node → env.Ready N fuel u →
      ∃ (a : Unit) (u' : Session), (do
        let found ← env.searchNode compile fuel n name
        found.forM (mergeDecl compile target) : Resolve Unit).run u = .ok (a, u') ∧ env.Ready N fuel u' := by
    intro n _ u hn hu
    have hplain : n.IsPlain := isPlain_of_mem_nodes (mem_nodes_of_mem_members hu.sound hnode hn)
    obtain ⟨found, hf⟩ := searchNode_returns hplain (Nat.lt_of_le_of_lt (Nat.zero_le _) hu.fuel)
    obtain ⟨u', hm, hu'⟩ := forM_mergeDecl_returns hv hc found hu
    exact ⟨(), u', (Resolve.run_bind_of hf).trans hm, hu'⟩
  have hfuel : env.nodes.length < fuel + 0 := by
    have := ht.fuel
    omega
  obtain ⟨_, t', hloop, ht'⟩ :=
    Resolve.foldMembers_returns (fun _ => env.Ready N fuel) hlen hstep ht₁ (Nat.zero_le _) hfuel
  exact ⟨t', (Resolve.run_bind_of hr).trans hloop, ht'⟩

omit hv hc in
/-- Without substitutions a result is merged as it is. -/
theorem mergeReturned_returns (hs : s.substitutions = .empty) (call : DeclId) (returned : Option TypeNode) :
    (mergeReturned fuel target call returned).run s = .ok ((), s.setNode target returned) := by
  have hnone : (s.cache.members returned).any (isTemplate s) = false := by
    rw [List.any_eq_false]
    intro n _
    cases n <;> simp [isTemplate, Substitutions.isTemplate, hs, Substitutions.get?, Substitutions.empty]
  rw [mergeReturned, Resolve.run_bind_of (a := s) (t := s) rfl, hnone]
  rfl

theorem mergeResult_returns {index : Nat} (callee call : DeclId) (hindex : index ≤ N) (ht : env.Ready N fuel t) :
    ∃ t', (mergeResult env compile fuel target callee index call).run t = .ok ((), t') ∧ env.Ready N fuel t' := by
  obtain ⟨node, t₁, hr, ht₁, -⟩ := compile_returns hv hc (.decl callee) (Nat.zero_le _) ht
  rw [mergeResult, Resolve.run_bind_of hr, Resolve.run_bind_of (a := t₁) (t := t₁) rfl]
  split
  · exact ⟨t₁, rfl, ht₁⟩
  · next f _ =>
    obtain ⟨returned, t₂, hr₂, ht₂, hvis⟩ := compile_returns hv hc (.ret f index) hindex ht₁
    refine ⟨t₂.setNode target returned, ?_, ht₂.merge hvis⟩
    rw [Resolve.run_bind_of hr₂, mergeReturned_returns ht₂.sound.substitutions]
  · next returns _ =>
    split
    · exact ⟨t₁, rfl, ht₁⟩
    · next position =>
      cases returns[position]? with
      | none => exact ⟨t₁, rfl, ht₁⟩
      | some e => exact mergeDecl_returns hv hc e ht₁

theorem runStep_returns (hmono : env.arena.Monomorphic) (hmax : env.maxIndex = env.arena.maxIndex) {st : Step}
    (hstep : st ∈ env.rule target) (htarget : target.result ≤ N) (hN : env.maxIndex ≤ N) (ht : env.Ready N fuel t) :
    ∃ t', (runStep env compile fuel target st).run t = .ok ((), t') ∧ env.Ready N fuel t' := by
  have hex := explains_of_mem_rule hstep
  cases st with
  | own n =>
    obtain ⟨d, rfl, hown⟩ := hex
    exact ⟨_, rfl, ht.own hown.mem_nodes hown.not_union⟩
  | merge d => exact mergeDecl_returns hv hc d ht
  | read base name =>
    obtain ⟨found, t₁, hf, ht₁⟩ := searchMember_returns hv hc base ht
    obtain ⟨t', hm, ht'⟩ := forM_mergeDecl_returns hv hc found ht₁
    exact ⟨t', (Resolve.run_bind_of hf).trans hm, ht'⟩
  | delegate metatable name => exact delegate_returns hv hc metatable ht
  | result callee index call =>
    obtain ⟨args, hcall, -, -⟩ := hex
    refine mergeResult_returns hv hc callee call ?_ ht
    have := hcall.index_le
    omega
  | template sub =>
    obtain ⟨f, index, sig, -, hsig⟩ := hex
    rw [hmono.signature] at hsig
    cases hsig

omit hv hc in
theorem runSubstitution_returns (hs : s.substitutions = .empty) (i : GenericId) :
    (runSubstitution env compile target i).run s = .ok ((), s) := by
  have hnone : s.substitutions.get? i = none := by simp [hs, Substitutions.get?, Substitutions.empty]
  rw [runSubstitution, Resolve.run_bind_of (a := s) (t := s) rfl, hnone]
  rfl

theorem runRule_returns (hmono : env.arena.Monomorphic) (hmax : env.maxIndex = env.arena.maxIndex)
    (htarget : target.result ≤ N) (hN : env.maxIndex ≤ N) (ht : t.Sound env.Mentions)
    (hready : ∀ st ∈ env.rule target, env.Ready N fuel t) :
    ∃ t', (runRule env compile fuel target).run t = .ok ((), t') ∧ t'.Sound env.Mentions := by
  have hsteps : ∃ t', ((env.rule target).forM (runStep env compile fuel target)).run t = .ok ((), t') ∧
      t'.Sound env.Mentions := by
    by_cases hrule : env.rule target = []
    · rw [hrule]
      exact ⟨t, rfl, ht⟩
    · obtain ⟨st, hst⟩ := List.exists_mem_of_ne_nil _ hrule
      obtain ⟨t', hr, ht'⟩ := Resolve.forM_returns (env.Ready N fuel)
        (fun st hst u hu => runStep_returns hv hc hmono hmax hst htarget hN hu) (hready st hst)
      exact ⟨t', hr, ht'.sound⟩
  cases target with
  | decl d => exact hsteps
  | ret f index => exact hsteps
  | generic i => exact ⟨t, runSubstitution_returns ht.substitutions i, ht⟩

end Compile

/-- By induction on the fuel: each slot that a rule starts is one less that is absent. -/
theorem compileSlot_returning (hmono : env.arena.Monomorphic) (hmax : env.maxIndex = env.arena.maxIndex)
    (hN : env.maxIndex ≤ N) (fuel : Nat) : env.Returning N fuel (env.compileSlot fuel) := by
  induction fuel with
  | zero => intro key t _ ht; exact absurd ht.fuel (Nat.not_lt_zero _)
  | succ fuel ih =>
    intro key t hkey ht
    cases hslot : t.cache.slot? key with
    | some slot =>
      have hhit : t.Grows ∅ (t.hit key (env.slotKind key) slot.state) := .hit _ _ _ _
      exact ⟨_, _, compileSlot_of_slot hslot, ht.grows (ht.sound.hit _ _) hhit⟩
    | none =>
      have hstart := ht.sound.start hslot (env.slotKind key)
      -- a slot that has steps counts among the absent ones, and after the start it does not
      have hready : ∀ st ∈ env.rule key, env.Ready N fuel (t.start key (env.slotKind key)) := by
        intro st hst
        refine ⟨hstart, ?_⟩
        have hless := absent_start hslot (mem_slotsUpTo_of_mem_rule hst hkey) (env.slotKind key)
        have := ht.fuel
        omega
      obtain ⟨u, hrun, hu⟩ := runRule_returns (env.compileSlot_visits fuel) ih hmono hmax hkey hN hstart hready
      have hcompile := compileSlot_of_rule hslot hrun
      exact ⟨_, _, hcompile, ht.grows (hu.finish _) (env.compileSlot_visits _ _ _ _ _ ht.sound.wellFormed hcompile).grows⟩

/-- The bound of a query is enough for its slots and its loops. -/
theorem absent_lt_budget (env : Env) (s : Session) (index : Nat) :
    env.absent (max index env.maxIndex) s + env.nodes.length + 1 < env.budget s index := by
  have habsent : env.absent (max index env.maxIndex) s ≤ env.arena.size * (max index env.maxIndex + 2) :=
    (Finset.card_filter_le _ _).trans (card_slotsUpTo_le _ _)
  have hnodes := env.length_nodes_le
  have hextent : env.absent (max index env.maxIndex) s + env.nodes.length + 1 < 2 * env.extent s index := by
    unfold extent
    have hmul : (env.arena.size + 1) * (max index env.maxIndex + 2) =
        env.arena.size * (max index env.maxIndex + 2) + (max index env.maxIndex + 2) := Nat.succ_mul _ _
    have htwo : 2 * env.arena.size ≤ env.arena.size * (max index env.maxIndex + 2) := by
      rw [Nat.mul_comm 2]
      exact Nat.mul_le_mul_left _ (by omega)
    omega
  have hpos : 2 ≤ env.extent s index := by
    unfold extent
    omega
  calc env.absent (max index env.maxIndex) s + env.nodes.length + 1
      < 2 * env.extent s index := hextent
    _ ≤ env.extent s index * env.extent s index * env.extent s index * env.extent s index :=
        Nat.mul_le_mul_right _ (Nat.le_trans hpos (Nat.le_mul_of_pos_left _ (Nat.mul_pos (by omega) (by omega))))

theorem ready_budget (hs : s.Sound env.Mentions) (index : Nat) :
    env.Ready (max index env.maxIndex) (env.budget s index) s :=
  ⟨hs, Nat.lt_of_succ_lt (env.absent_lt_budget s index)⟩

end Env

/-! ## Queries -/

namespace Session

variable {env : Env} {s : Session} {q : Query}

/-- Operations return from sessions of a kind, and leave sessions of that kind. -/
structure Answers (env : Env) (I : Session → Prop) : Prop where
  compile : ∀ s key, I s → ∃ node s', s.compile env key = .ok (node, s') ∧ I s'
  searchNode : ∀ s node name, I s → ∃ found s', s.searchNode env node name = .ok (found, s') ∧ I s'
  searchMember : ∀ s base name, I s → ∃ found s', s.searchMember env base name = .ok (found, s') ∧ I s'
  clear : ∀ s, I s → I s.clear

namespace Answers

variable {I : Session → Prop}

/-- Then a query returns that merges nothing from outside. -/
theorem ask (h : Answers env I) (hs : I s) (hq : q.merges = false) : ∃ a s', s.ask env q = .ok (a, s') ∧ I s' := by
  cases q with
  | decl d =>
    obtain ⟨node, s', hr, hs'⟩ := h.compile s (.decl d) hs
    exact ⟨.node node, s', by rw [Session.ask, compileDecl, hr]; rfl, hs'⟩
  | result f index =>
    obtain ⟨node, s', hr, hs'⟩ := h.compile s (.ret f index) hs
    exact ⟨.node node, s', by rw [Session.ask, compileReturn, hr]; rfl, hs'⟩
  | generic i =>
    obtain ⟨node, s', hr, hs'⟩ := h.compile s (.generic i) hs
    exact ⟨.node node, s', by rw [Session.ask, compileGeneric, hr]; rfl, hs'⟩
  | search node name =>
    obtain ⟨found, s', hr, hs'⟩ := h.searchNode s node name hs
    exact ⟨.decls found, s', by rw [Session.ask, hr]; rfl, hs'⟩
  | searchMember base name =>
    obtain ⟨found, s', hr, hs'⟩ := h.searchMember s base name hs
    exact ⟨.decls found, s', by rw [Session.ask, hr]; rfl, hs'⟩
  | searchClass g name =>
    obtain ⟨found, hr⟩ := env.searchClass_returns g name
    exact ⟨.decls found, s, by rw [Session.ask, hr]; rfl, hs⟩
  | signature f => exact ⟨_, s, rfl, hs⟩
  | setNode key node => cases hq
  | clear => exact ⟨.done, s.clear, rfl, h.clear s hs⟩

theorem askAll {qs : List Query} (h : Answers env I) (hs : I s) (hqs : ∀ q ∈ qs, q.merges = false) :
    ∃ answers s', s.askAll env qs = .ok (answers, s') ∧ I s' := by
  induction qs generalizing s with
  | nil => exact ⟨[], s, rfl, hs⟩
  | cons q qs ih =>
    obtain ⟨a, t, hq, ht⟩ := h.ask hs (hqs q (by simp))
    obtain ⟨as, s', hrest, hs'⟩ := ih ht fun p hp => hqs p (by simp [hp])
    refine ⟨a :: as, s', ?_, hs'⟩
    rw [Session.askAll, hq]
    change (t.askAll env qs >>= _) = _
    rw [hrest]
    rfl

end Answers

section Monomorphic

variable (hmono : env.arena.Monomorphic) (hmax : env.maxIndex = env.arena.maxIndex)
include hmono hmax

theorem compile_returns (hs : s.Sound env.Mentions) (key : SlotKey) :
    ∃ node s', s.compile env key = .ok (node, s') ∧ s'.Sound env.Mentions := by
  obtain ⟨node, s', hr, hs'⟩ := Env.compileSlot_returning hmono hmax (Nat.le_max_right key.result _) _ key s
    (Nat.le_max_left _ _) (Env.ready_budget hs key.result)
  exact ⟨node, s', hr, hs'.sound⟩

theorem searchMember_returns (hs : s.Sound env.Mentions) (base : DeclId) (name : Atom) :
    ∃ found s', s.searchMember env base name = .ok (found, s') ∧ s'.Sound env.Mentions := by
  obtain ⟨found, s', hr, hs'⟩ := Env.searchMember_returns (env.compileSlot_visits _)
    (Env.compileSlot_returning hmono hmax (Nat.le_max_right 1 _) _) base (Env.ready_budget hs 1)
  exact ⟨found, s', hr, hs'.sound⟩

theorem searchNode_returns (hs : s.Sound env.Mentions) (node : TypeNode) (name : Atom) :
    ∃ found s', s.searchNode env node name = .ok (found, s') ∧ s'.Sound env.Mentions := by
  have hbudget := env.absent_lt_budget s 1
  obtain ⟨found, s', hr, hs'⟩ := Env.searchAny_returns (env.compileSlot_visits _)
    (Env.compileSlot_returning hmono hmax (Nat.le_max_right 1 _) _) node (Env.ready_budget hs 1) (by omega)
  exact ⟨found, s', hr, hs'.sound⟩

theorem answers_mentions : Answers env (Session.Sound env.Mentions) where
  compile _ key hs := compile_returns hmono hmax hs key
  searchNode _ node name hs := searchNode_returns hmono hmax hs node name
  searchMember _ base name hs := searchMember_returns hmono hmax hs base name
  clear _ _ := ⟨NodeCache.wellFormed_empty, .empty, rfl⟩

end Monomorphic

/-- In a program without type parameters in which no declaration stands in itself, all queries return that
merge nothing from outside: those from a fresh session on, whatever they are, and each one asked after them.
No union outgrows the declarations and globals there are, and each climb to an enclosing function ends. -/
theorem askAll_returns {p : Program} (hmono : p.arena.Monomorphic) (hparents : p.arena.ParentsAcyclic)
    (options : Options) {qs : List Query} (hqs : ∀ q ∈ qs, q.merges = false) :
    (∃ answers s, fresh.askAll (.of p options) qs = .ok (answers, s) ∧
      (∀ q, q.merges = false → ∃ a s', s.ask (.of p options) q = .ok (a, s')) ∧
      ∀ u, (s.cache.unions.members u).length ≤ 2 * p.arena.size + p.globals.size) ∧
    ∀ d, p.arena.ancestor? (p.arena.size + 1) d = none := by
  refine ⟨?_, Arena.ancestor?_eq_none hparents⟩
  have hanswers : Answers (.of p options) (Session.Sound (Env.of p options).Mentions) := answers_mentions hmono rfl
  obtain ⟨answers, s, hall, hs⟩ := hanswers.askAll sound_fresh hqs
  refine ⟨answers, s, hall, fun q hq => ?_, fun u => ?_⟩
  · obtain ⟨a, s', hask, -⟩ := hanswers.ask hs hq
    exact ⟨a, s', hask⟩
  · have hunion : (Env.of p options).IsHandle (some (.union u)) := fun n hn => by cases hn; exact .inl rfl
    exact (Env.length_members_le hs hunion).trans (Env.length_nodes_le _)

end Session

/-- `local function f() return f() end`, two classes that extend each other, and `t.k = t.k`. -/
def Program.sampleKnot : Program :=
  (empty.build [.function [], .localVar "f" (some ⟨0⟩), .getLocal ⟨1⟩, .call ⟨2⟩ [], .ret ⟨0⟩ [⟨3⟩],
    .docClass "A" ["B"], .docClass "B" ["A"], .table [], .localVar "t" (some ⟨9⟩), .getLocal ⟨10⟩, .getField ⟨11⟩ "k",
    .getLocal ⟨10⟩, .setField ⟨13⟩ "k" ⟨12⟩]).2

/-- The seventh result of `f` is asked for, which is the seventh result of `f`; the search of a class goes round. -/
theorem Session.askAll_returns_knot : Program.sampleKnot.arena.Monomorphic ∧ Program.sampleKnot.arena.ParentsAcyclic ∧
    ∃ answers s, fresh.askAll (.of .sampleKnot { maxClassDepth := 4294967295 })
      [.decl ⟨3⟩, .result ⟨0⟩ 7, .searchClass ⟨0⟩ ⟨1⟩, .decl ⟨12⟩] = .ok (answers, s) := by
  have hmono : Program.sampleKnot.arena.Monomorphic := by decide +kernel
  have hparents : Program.sampleKnot.arena.ParentsAcyclic := by decide +kernel
  have hqs : ∀ q ∈ [.decl ⟨3⟩, .result ⟨0⟩ 7, .searchClass ⟨0⟩ ⟨1⟩, .decl ⟨12⟩], Query.merges q = false := by decide
  obtain ⟨⟨answers, s, hall, -⟩, -⟩ := askAll_returns hmono hparents { maxClassDepth := 4294967295 } hqs
  exact ⟨hmono, hparents, answers, s, hall⟩

end LuaInfer
