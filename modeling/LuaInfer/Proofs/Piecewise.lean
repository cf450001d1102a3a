import LuaInfer.Proofs.Parts
/-!
# Searching a declaration is searching its members

A search goes through substitutions to the plain nodes behind them. `NodeCache.Expands` says which plain nodes those are,
from the slots of the cache alone, and it stays true while a session grows. A search is the search of these plain nodes
(`Env.foldMembers_expands`), and conversely such nodes can be searched again without running a rule
(`Env.huntNode_of_expands`). With `Hunt.Steady`, the search of a declaration falls into the searches of its members, each with
a guard of its own: `Session.searchMember_piecewise`.
-/

namespace LuaInfer

/-! ## The plain nodes behind a node -/

namespace NodeCache

theorem Grows.members_of_slot {c c' : NodeCache} (hg : c.Grows ∅ c') (hw : c.WellFormed) {key : SlotKey} {slot : Slot}
    (hs : c.slot? key = some slot) : c'.members slot.node = c.members slot.node := by
  have heq := hg.members_slot hw (k := key) (by simp [hs])
  rwa [node?_of_slot? (hg.slot key (by simp) slot hs), node?_of_slot? hs] at heq

/-- The nodes `ns` stand for the plain nodes `ps`: a substitution stands for the members of its slot. The bound is that on
the depth of a search, and on the length of its loops. -/
inductive Expands (c : NodeCache) : Nat → List TypeNode → List TypeNode → Prop
  | nil {fuel} : Expands c fuel [] []
  | plain {fuel n ns ps} : n.IsPlain → Expands c (fuel + 1) ns ps → Expands c (fuel + 1) (n :: ns) (n :: ps)
  | generic {fuel i slot ns ms ps} : c.slot? (.generic i) = some slot → (c.members slot.node).length < fuel →
      Expands c fuel (c.members slot.node) ms → Expands c (fuel + 1) ns ps →
      Expands c (fuel + 1) (.generic i :: ns) (ms ++ ps)

namespace Expands

variable {c c' : NodeCache} {fuel fuel' : Nat} {n : TypeNode} {ns ms ps : List TypeNode}

theorem cons (h : c.Expands fuel [n] ms) (hs : c.Expands fuel ns ps) : c.Expands fuel (n :: ns) (ms ++ ps) := by
  cases h with
  | plain hn hnil =>
    cases hnil
    exact .plain hn hs
  | generic hslot hlen hm hnil =>
    cases hnil
    rw [List.append_nil]
    exact .generic hslot hlen hm hs

theorem cons_inv (h : c.Expands fuel (n :: ns) ps) :
    ∃ ms rest, c.Expands fuel [n] ms ∧ c.Expands fuel ns rest ∧ ps = ms ++ rest := by
  cases h with
  | plain hn hs => exact ⟨[n], _, .plain hn .nil, hs, rfl⟩
  | generic hslot hlen hm hs => exact ⟨_ ++ [], _, .generic hslot hlen hm .nil, hs, by rw [List.append_nil]⟩

/-- What a slot holds stays, and so does what the nodes stand for. -/
theorem grows (hg : c.Grows ∅ c') (hw : c.WellFormed) (h : c.Expands fuel ns ps) : c'.Expands fuel ns ps := by
  induction h with
  | nil => exact .nil
  | plain hn _ ih => exact .plain hn ih
  | @generic fuel i slot ns ms ps hslot hlen _ _ ihm ihs =>
    have hslot' : c'.slot? (.generic i) = some slot := hg.slot _ (by simp) _ hslot
    rw [← hg.members_of_slot hw hslot] at hlen ihm
    exact .generic hslot' hlen ihm ihs

theorem unique {ps' : List TypeNode} (h : c.Expands fuel ns ps) (h' : c.Expands fuel ns ps') : ps = ps' := by
  induction h generalizing ps' with
  | nil => cases h'; rfl
  | plain hn _ ih =>
    cases h' with
    | plain _ h' => rw [ih h']
    | generic => cases hn
  | generic hslot _ _ _ ihm ihs =>
    cases h' with
    | plain hn => cases hn
    | generic hslot' _ hm' hs' =>
      cases hslot.symm.trans hslot'
      rw [ihm hm', ihs hs']

theorem mono (h : c.Expands fuel ns ps) (hle : fuel ≤ fuel') : c.Expands fuel' ns ps := by
  induction h generalizing fuel' with
  | nil => exact .nil
  | plain hn _ ih =>
    obtain ⟨k, rfl⟩ := Nat.exists_eq_succ_of_ne_zero (by omega : fuel' ≠ 0)
    exact .plain hn (ih hle)
  | generic hslot hlen _ _ ihm ihs =>
    obtain ⟨k, rfl⟩ := Nat.exists_eq_succ_of_ne_zero (by omega : fuel' ≠ 0)
    exact .generic hslot (by omega) (ihm (by omega)) (ihs hle)

end Expands

end NodeCache

/-! ## Searches of plain nodes -/

namespace Env

variable {env : Env} {compile : Compile} {name : Atom} {h h' : Hunt} {s s' t : Session} {n : TypeNode}
  {fuel depth rounds position : Nat} {node : Option TypeNode} {key : SlotKey} {ns ps : List TypeNode}

section Visiting

variable (hc : compile.Visiting)
include hc

theorem foldMembers_evolves {cursor : Cursor}
    (hr : (Resolve.foldMembers (env.huntNode compile name depth) rounds cursor h).run s = .ok (h', s')) : s.Evolves ∅ s' :=
  Resolve.foldMembers_ok (fun _ t => s.Evolves ∅ t) (fun _ _ _ _ _ _ ht hn => ht.trans (huntNode_evolves hc hn))
    (.refl _ _) hr

/-- A loop over the members of a slot. No search merges into a slot that exists, so the members stay as they are. -/
theorem foldMembers_expands
    (hnode : ∀ {n h h' s s'}, s.cache.WellFormed → n.isUnion = false →
      (env.huntNode compile name depth h n).run s = .ok (h', s') →
      ∃ ps, s'.cache.Expands depth [n] ps ∧ ps.foldlM (env.huntPlain name) h = .ok h')
    {slot : Slot} (hw : s.cache.WellFormed) (hslot : s.cache.slot? key = some slot)
    (hr : (Resolve.foldMembers (env.huntNode compile name depth) rounds ⟨slot.node, position⟩ h).run s = .ok (h', s')) :
    ((s.cache.members slot.node).drop position).length < rounds ∧ ∃ ps,
      s'.cache.Expands depth ((s.cache.members slot.node).drop position) ps ∧ ps.foldlM (env.huntPlain name) h = .ok h' := by
  induction rounds generalizing position h s with
  | zero => cases hr
  | succ rounds ih =>
    rw [Resolve.foldMembers] at hr
    obtain ⟨_, _, hg, hr⟩ := Resolve.bind_ok hr
    cases hg
    cases hp : (s.cache.members slot.node)[position]? with
    | none =>
      simp only [Cursor.next?, hp, Option.map_none] at hr
      obtain ⟨rfl, rfl⟩ := Resolve.pure_ok hr
      have hlen := List.getElem?_eq_none_iff.1 hp
      rw [List.drop_eq_nil_of_le hlen]
      exact ⟨Nat.succ_pos _, [], .nil, rfl⟩
    | some n =>
      simp only [Cursor.next?, hp, Option.map_some] at hr
      obtain ⟨a, t, hn, hr⟩ := Resolve.bind_ok hr
      obtain ⟨hlt, hget⟩ := List.getElem?_eq_some_iff.1 hp
      obtain ⟨hwt, hgt⟩ := huntNode_evolves hc hn hw
      obtain ⟨ms, hms, hfold⟩ := hnode hw (hw.members_flat n (List.mem_of_getElem? hp)) hn
      obtain ⟨hlen, ps, hps, hrest⟩ := ih hwt (hgt.cache.slot key (by simp) _ hslot) hr
      obtain ⟨-, hg'⟩ := foldMembers_evolves hc hr hwt
      rw [hgt.cache.members_of_slot hw hslot] at hlen hps
      rw [List.drop_eq_getElem_cons hlt, hget]
      refine ⟨Nat.succ_lt_succ hlen, ms ++ ps, ?_, ?_⟩
      · exact (hms.grows hg'.cache hwt).cons hps
      · rw [List.foldlM_append, hfold]
        exact hrest

/-- The search of a node is the search of the plain nodes it stands for afterwards. -/
theorem huntNode_expands (hw : s.cache.WellFormed) (hn : n.isUnion = false)
    (hr : (env.huntNode compile name fuel h n).run s = .ok (h', s')) :
    ∃ ps, s'.cache.Expands fuel [n] ps ∧ ps.foldlM (env.huntPlain name) h = .ok h' := by
  induction fuel generalizing n h h' s s' with
  | zero => cases hr
  | succ fuel ih =>
    cases n with
    | leaf d =>
      obtain ⟨rfl, rfl⟩ := Resolve.pure_ok hr
      exact ⟨_, .plain trivial .nil, rfl⟩
    | global g =>
      obtain ⟨hg, rfl⟩ := Resolve.lift_ok hr
      refine ⟨_, .plain trivial .nil, ?_⟩
      rw [List.foldlM_cons, show env.huntPlain name h (.global g) = .ok h' from hg]
      rfl
    | generic i =>
      obtain ⟨resolved, t, hi, hr⟩ := Resolve.bind_ok hr
      have hv := hc _ _ _ _ hw hi
      obtain ⟨st, hslot⟩ := hv.slot
      obtain ⟨hlen, ps, hps, hfold⟩ := foldMembers_expands hc ih hv.wellFormed hslot hr
      obtain ⟨-, hg⟩ := foldMembers_evolves hc hr hv.wellFormed
      rw [List.drop_zero, ← hg.cache.members_of_slot hv.wellFormed hslot] at hps hlen
      refine ⟨ps ++ [], .generic (hg.cache.slot _ (by simp) _ hslot) hlen hps .nil, ?_⟩
      rw [List.append_nil]
      exact hfold
    | union u => cases hn

end Visiting

/-! ## The same search again -/

variable {c : NodeCache}

theorem foldMembers_of_expands
    (hnode : ∀ {n ps h h' t}, t.cache = c → c.Expands depth [n] ps → ps.foldlM (env.huntPlain name) h = .ok h' →
      ∃ t', (env.huntNode compile name depth h n).run t = .ok (h', t') ∧ t'.cache = c)
    (ht : t.cache = c) (hlen : ((c.members node).drop position).length < rounds)
    (hE : c.Expands depth ((c.members node).drop position) ps) (hr : ps.foldlM (env.huntPlain name) h = .ok h') :
    ∃ t', (Resolve.foldMembers (env.huntNode compile name depth) rounds ⟨node, position⟩ h).run t = .ok (h', t') ∧
      t'.cache = c := by
  induction rounds generalizing position h t ps with
  | zero => cases hlen
  | succ rounds ih =>
    rw [Resolve.foldMembers, Resolve.run_bind_of (show (get : Resolve Session).run t = .ok (t, t) from rfl), ht]
    cases hp : (c.members node)[position]? with
    | none =>
      rw [List.drop_eq_nil_of_le (List.getElem?_eq_none_iff.1 hp)] at hE
      cases hE
      cases hr
      simp only [Cursor.next?, hp, Option.map_none]
      exact ⟨t, rfl, ht⟩
    | some n =>
      obtain ⟨hlt, hget⟩ := List.getElem?_eq_some_iff.1 hp
      rw [List.drop_eq_getElem_cons hlt, hget] at hE hlen
      obtain ⟨ms, rest, hms, hrest, rfl⟩ := hE.cons_inv
      rw [List.foldlM_append] at hr
      obtain ⟨a, ha, hr⟩ := Except.bind_ok hr
      obtain ⟨t₁, hn, ht₁⟩ := hnode ht hms ha
      obtain ⟨t₂, hl, ht₂⟩ := ih ht₁ (Nat.lt_of_succ_lt_succ hlen) hrest hr
      simp only [Cursor.next?, hp, Option.map_some]
      rw [Resolve.run_bind_of hn]
      exact ⟨t₂, hl, ht₂⟩

/-- Plain nodes behind a node that is all resolved are searched through the slots that are there. -/
theorem huntNode_of_expands (ht : t.cache = c) (hE : c.Expands depth [n] ps)
    (hr : ps.foldlM (env.huntPlain name) h = .ok h') :
    ∃ t', (env.huntNode (env.compileSlot (fuel + 1)) name depth h n).run t = .ok (h', t') ∧ t'.cache = c := by
  induction depth generalizing n ps h h' t with
  | zero => cases hE
  | succ depth ih =>
    cases hE with
    | plain hn hnil =>
      cases hnil
      rw [List.foldlM_cons] at hr
      obtain ⟨a, ha, hr⟩ := Except.bind_ok hr
      cases hr
      cases n with
      | leaf d =>
        cases ha
        exact ⟨t, rfl, ht⟩
      | global g =>
        refine ⟨t, ?_, ht⟩
        change (liftM (env.huntPlain name h (.global g)) : Resolve Hunt).run t = _
        rw [ha]
        rfl
      | _ => cases hn
    | @generic _ i slot _ ms _ hslot hlen hm hnil =>
      cases hnil
      rw [List.append_nil] at hr
      have hhit : (env.compileSlot (fuel + 1) (.generic i)).run t = .ok (slot.node, t.hit (.generic i) _ slot.state) :=
        compileSlot_of_slot (ht ▸ hslot)
      rw [huntNode, Resolve.run_bind_of hhit]
      exact foldMembers_of_expands ih ((Session.cache_hit t _ _ _).1.trans ht) hlen hm hr

/-- A search of the node by itself finds `ds`. -/
def FindsAlone (env : Env) (c : NodeCache) (fuel : Nat) (name : Atom) (n : TypeNode) (ds : List DeclId) : Prop :=
  ∃ ms own, c.Expands fuel [n] ms ∧ ms.foldlM (env.huntPlain name) env.hunt = .ok own ∧ env.hunt.Keeps own ∧ own.found = ds

/-- A search with one guard for all of `ns` that stays within the limit: each node has a search of its own that finds its
part of what was found. -/
theorem exists_parts (hE : c.Expands fuel ns ps) (hk : env.hunt.Keeps h)
    (hr : ps.foldlM (env.huntPlain name) h = .ok h') (hw : h'.guard.Within) :
    ∃ found, h'.found = Distinct.append h.found (Distinct.concat found) ∧
      List.Forall₂ (env.FindsAlone c fuel name) ns found := by
  have hsteady : ∀ ps : List TypeNode, env.hunt.Steady fun h => ps.foldlM (env.huntPlain name) h :=
    fun ps => .foldlM fun n _ => huntPlain_steady n
  induction ns generalizing ps h with
  | nil =>
    cases hE
    cases hr
    exact ⟨[], rfl, .nil⟩
  | cons n ns ih =>
    obtain ⟨ms, rest, hms, hrest, rfl⟩ := hE.cons_inv
    rw [List.foldlM_append] at hr
    obtain ⟨a, ha, hr⟩ := Except.bind_ok hr
    have hka : env.hunt.Keeps a := (hsteady ms).keeps hk ha
    -- the rest stayed within the limit, so it was not passed before
    obtain ⟨_, _, hlimit, -⟩ := (hsteady rest).adds hka hr hw
    obtain ⟨k, ds, hle, hadds, rfl⟩ := (hsteady ms).run hk ha (hka.within.2 (Nat.le_of_add_right_le hlimit))
    obtain ⟨found, hfound, hparts⟩ := ih hrest hka hr
    have hown := hadds env.hunt (.refl _) (Nat.le_trans (Nat.add_le_add_right (Nat.zero_le _) k) hle)
    refine ⟨Distinct.append [] ds :: found, ?_, .cons ⟨ms, _, hms, hown, (Hunt.Keeps.refl _).advance, rfl⟩ hparts⟩
    rw [hfound, Distinct.append_concat_cons, Distinct.append_nil_append]
    rfl

theorem FindsAlone.grows {c' : NodeCache} {ds : List DeclId} (h : env.FindsAlone c fuel name n ds) (hg : c.Grows ∅ c')
    (hw : c.WellFormed) : env.FindsAlone c' fuel name n ds := by
  obtain ⟨ms, own, hms, hown⟩ := h
  exact ⟨ms, own, hms.grows hg hw, hown⟩

/-- A search by itself finds the same at any bound. -/
theorem FindsAlone.unique {fuel' : Nat} {ds ds' : List DeclId} (h : env.FindsAlone c fuel name n ds)
    (h' : env.FindsAlone c fuel' name n ds') : ds = ds' := by
  obtain ⟨ms, own, hms, hown, -, rfl⟩ := h
  obtain ⟨ms', own', hms', hown', -, rfl⟩ := h'
  have hsame : ms = ms' := (hms.mono (Nat.le_max_left fuel fuel')).unique (hms'.mono (Nat.le_max_right fuel fuel'))
  rw [hsame, hown'] at hown
  cases hown
  rfl

/-- The search of a declaration: the declaration has a slot afterwards, and if the search has stayed within the limit, each
of its members has found its part. -/
theorem huntMember_parts {base : DeclId} (hc : compile.Visiting) (hw : s.cache.WellFormed)
    (hr : (env.huntMember compile fuel base name).run s = .ok (h, s')) :
    s'.cache.WellFormed ∧ s.Grows ∅ s' ∧ env.hunt.Keeps h ∧ ∃ st node, s'.cache.slot? (.decl base) = some ⟨st, node⟩ ∧
      (h.guard.Within → ∃ found, h.found = Distinct.concat found ∧
        List.Forall₂ (env.FindsAlone s'.cache fuel name) (s'.cache.members node) found) := by
  obtain ⟨node, t, hd, hloop⟩ := Resolve.bind_ok hr
  have hv := hc _ _ _ _ hw hd
  obtain ⟨st, hslot⟩ := hv.slot
  obtain ⟨hw', hg⟩ := foldMembers_evolves hc hloop hv.wellFormed
  obtain ⟨-, ps, hE, hplain⟩ := foldMembers_expands hc (huntNode_expands hc) hv.wellFormed hslot hloop
  rw [List.drop_zero, ← hg.cache.members_of_slot hv.wellFormed hslot] at hE
  have hsteady : env.hunt.Steady fun h => ps.foldlM (env.huntPlain name) h := .foldlM fun n _ => huntPlain_steady n
  refine ⟨hw', hv.grows.trans hg, hsteady.keeps (.refl _) hplain, st, node, hg.cache.slot _ (by simp) _ hslot, fun hwithin => ?_⟩
  obtain ⟨found, hfound, hparts⟩ := exists_parts hE (.refl _) hplain hwithin
  refine ⟨found, hfound.trans ?_, hparts⟩
  exact Distinct.append_of_nodup (Distinct.nodup_concat found) (by simp [Env.hunt])

end Env

/-! ## Sessions -/

/-- More unions have more members. -/
theorem UnionArena.weight_le {a b : UnionArena} (h : a.unions.toList <+: b.unions.toList) : a.weight ≤ b.weight := by
  obtain ⟨rest, hrest⟩ := h
  rw [weight, weight, ← Array.foldl_toList, ← Array.foldl_toList, ← hrest, List.foldl_append]
  clear hrest
  generalize a.unions.toList.foldl _ 0 = n
  induction rest generalizing n with
  | nil => exact Nat.le_refl n
  | cons data rest ih => exact Nat.le_trans (Nat.le_add_right n _) (ih _)

namespace Session

variable {env : Env} {s s' t : Session} {name : Atom} {base : DeclId}

/-- The bound on the work of a query grows with the session. -/
theorem Grows.budget_le (hg : s.Grows ∅ t) (env : Env) (index : Nat) : env.budget s index ≤ env.budget t index := by
  have hsubs : s.substitutions.size ≤ t.substitutions.size := by
    by_contra hlt
    have hget := hg.substitution ⟨t.substitutions.size⟩ _ (Array.getElem?_eq_getElem (Nat.lt_of_not_le hlt))
    have hnone : t.substitutions.get? ⟨t.substitutions.size⟩ = none := Array.getElem?_eq_none (Nat.le_refl _)
    rw [hget] at hnone
    cases hnone
  have hunions : s.cache.unions.unions.toList <+: t.cache.unions.unions.toList := by
    rw [List.prefix_iff_getElem?]
    intro i hi
    have hlt : i < s.cache.unions.unions.size := by simpa using hi
    have hu := hg.cache.union ⟨i⟩ hlt (by simp)
    rw [Array.getElem?_toList, hu, Array.getElem?_eq_getElem hlt, Array.getElem_toList]
  have hweight := UnionArena.weight_le hunions
  have hextent : env.extent s index ≤ env.extent t index := by
    unfold Env.extent
    omega
  exact Nat.mul_le_mul (Nat.mul_le_mul (Nat.mul_le_mul hextent hextent) hextent) hextent

/-- The searches of nodes that are all resolved, one after the other. -/
theorem askAll_searches {fuel : Nat} {c : NodeCache} {ns : List TypeNode} {found : List (List DeclId)}
    (hw : c.WellFormed) (ht : t.cache = c) (hfuel : fuel ≤ env.budget t 1)
    (hparts : List.Forall₂ (env.FindsAlone c fuel name) ns found) :
    ∃ t', t.askAll env (ns.map (.search · name)) = .ok (found.map .decls, t') := by
  induction hparts generalizing t with
  | nil => exact ⟨t, rfl⟩
  | @cons n _ _ _ hpart _ ih =>
    obtain ⟨ms, own, hms, hfold, hk, rfl⟩ := hpart
    obtain ⟨f, hf⟩ := Nat.exists_eq_succ_of_ne_zero (Nat.ne_of_gt (budget_pos env t 1))
    have hsearch : ∃ t', (env.huntNode (env.compileSlot (f + 1)) name (env.budget t 1) env.hunt n).run t = .ok (own, t') ∧
        t'.cache = c := Env.huntNode_of_expands ht (hms.mono hfuel) hfold
    obtain ⟨t₁, hr, ht₁⟩ := hsearch
    have hask : t.ask env (.search n name) = .ok (.decls own.found, t₁) := by
      rw [hf] at hr
      rw [ask, searchNode, Env.searchNode, hf, Resolve.run_bind_of hr, hk.close rfl]
      rfl
    obtain ⟨-, hg⟩ := ask_evolves rfl hask (ht ▸ hw)
    obtain ⟨t₂, hrest⟩ := ih ht₁ (Nat.le_trans hfuel (hg.budget_le env 1))
    refine ⟨t₂, ?_⟩
    rw [List.map_cons, askAll, hask]
    change (askAll env t₁ _ >>= _) = _
    rw [hrest]
    rfl

/-- In every session that queries reach: if the search of a declaration stays within the limit on attempts, and whatever is
asked after it, what it found is what the searches of the members of the declaration find, one after the other, without
duplicates. -/
theorem searchMember_piecewise (env : Env) {s s' : Session} {base : DeclId} {name : Atom} {h : Hunt} (hs : Reached env s)
    (hr : (env.huntMember (env.compileSlot (env.budget s 1)) (env.budget s 1) base name).run s = .ok (h, s'))
    (hw : h.guard.attempts ≤ Limits.maxGuardAttempts.toNat) :
    s.ask env (.searchMember base name) = .ok (.decls h.found, s') ∧
    ∀ qs answers t, (∀ q ∈ qs, q.isInquiry = true) → s'.askAll env qs = .ok (answers, t) →
      ∃ node t₁ found t₂, t.ask env (.decl base) = .ok (.node node, t₁) ∧
        t₁.askAll env ((t₁.cache.members node).map (.search · name)) = .ok (found.map .decls, t₂) ∧
        h.found = Distinct.concat found := by
  obtain ⟨hw', hg, hk, st, node, hslot, hsearch⟩ := Env.huntMember_parts (env.compileSlot_visits _) hs.idle.wellFormed hr
  refine ⟨?_, fun qs answers t hqs ha => ?_⟩
  · rw [ask, searchMember, Env.searchMember, Resolve.run_bind_of hr, hk.close rfl]
    rfl
  · obtain ⟨found, hfound, hparts⟩ := hsearch (hk.within.2 hw)
    -- all that the search has used is in the later session as it was
    obtain ⟨hwt, hgt⟩ := askAll_evolves hqs ha hw'
    have hbudget : env.budget s 1 ≤ env.budget t 1 := (hg.trans hgt).budget_le env 1
    have hslot' : t.cache.slot? (.decl base) = some ⟨st, node⟩ := hgt.cache.slot _ (by simp) _ hslot
    have hask : ∃ t₁, t.ask env (.decl base) = .ok (.node node, t₁) ∧ t₁.cache = t.cache ∧ t.Grows ∅ t₁ := by
      refine ⟨_, ?_, (cache_hit t (.decl base) _ st).1, .hit ∅ t (env.slotKind (.decl base)) st⟩
      rw [ask, compileDecl, compile_of_slot hslot']
      rfl
    obtain ⟨t₁, hdecl, hcache, hgrow⟩ := hask
    have hmembers : t.cache.members node = s'.cache.members node := hgt.cache.members_of_slot hw' hslot
    obtain ⟨t₂, hsearches⟩ := askAll_searches hwt hcache (Nat.le_trans hbudget (hgrow.budget_le env 1))
      (hparts.imp fun n ds hn => hn.grows hgt.cache hw')
    refine ⟨node, t₁, found, t₂, hdecl, ?_, hfound⟩
    rw [hcache, hmembers]
    exact hsearches

end Session

/-- `local x = id({ k = 1 })` and `x = y`, where an annotation says that `y` is a `C` and that `C` has a field `k`. -/
def Program.sampleMixed : Program :=
  (empty.build [.function ["x"], .docGeneric ⟨1⟩ ["T"], .tyName "T", .docParam ⟨1⟩ "x" ⟨3⟩, .tyName "T",
    .docReturn ⟨1⟩ 1 ⟨5⟩, .integer 1, .table [("k", ⟨7⟩)], .call ⟨1⟩ [⟨9⟩], .docClass "C" [], .tyInteger 2,
    .docField ⟨11⟩ "k" ⟨12⟩, .localVar "y" none, .tyName "C", .docType ⟨14⟩ ⟨15⟩, .localVar "x" (some ⟨10⟩),
    .getLocal ⟨14⟩, .setLocal ⟨17⟩ ⟨18⟩]).2

namespace Session

/-- The members of `x` are two locals, a class and a substitution; the last two have a field each. -/
theorem searchMember_piecewise_mixed : ∃ s',
    fresh.ask (.of .sampleMixed {}) (.searchMember ⟨17⟩ ⟨3⟩) = .ok (.decls [⟨13⟩, ⟨8⟩], s') ∧
    ∀ qs answers t, (∀ q ∈ qs, q.isInquiry = true) → s'.askAll (.of .sampleMixed {}) qs = .ok (answers, t) →
      ∃ node t₁ found t₂, t.ask (.of .sampleMixed {}) (.decl ⟨17⟩) = .ok (.node node, t₁) ∧
        t₁.askAll (.of .sampleMixed {}) ((t₁.cache.members node).map (.search · ⟨3⟩)) = .ok (found.map .decls, t₂) ∧
        [⟨13⟩, ⟨8⟩] = Distinct.concat found := by
  obtain ⟨⟨h, s'⟩, hr, hvalue⟩ := Except.exists_ok
    (x := ((Env.of .sampleMixed {}).huntMember ((Env.of .sampleMixed {}).compileSlot ((Env.of .sampleMixed {}).budget fresh 1))
      ((Env.of .sampleMixed {}).budget fresh 1) ⟨17⟩ ⟨3⟩).run fresh)
    (f := fun r => (r.1.found, r.1.guard.attempts)) (b := ([⟨13⟩, ⟨8⟩], 1)) (by decide +kernel)
  obtain ⟨hfound, hattempts⟩ := Prod.mk.inj hvalue
  have hparts := searchMember_piecewise (.of .sampleMixed {}) .fresh hr (by rw [hattempts]; decide)
  rw [hfound] at hparts
  exact ⟨s', hparts⟩

end Session

end LuaInfer
