import LuaInfer.Proofs.Annotated
import LuaInfer.Proofs.Draws
/-!
# What a documented field is read as

A read of `t.k` takes what the identity of `t.k` contributes, and then the node of every declaration that defines `k` on `t`.
The identity is gated: next to an annotation only literals count. An assignment to `t.k` is gated in the same way, so it brings
nothing that the read does not have. A field of the table constructor that `t` is given is not gated: its value comes through,
documented or not (`Session.documented_field_leaks`).

So the read and the assignments draw from annotations, literals and such fields (`Env.ReadsField.funnels`), and
`Session.compileDecl_documented_field` says what that means for the members of the read.
-/

namespace LuaInfer

/-! ## The group of a read -/

/-- No identity has two groups, so the sources of an identity are those of its group. -/
theorem IdentityTable.Tidy.sources_eq {t : IdentityTable} {i : Nat} {g : IdentityGroup} (ht : t.Tidy)
    (hg : t.groups[i]? = some g) : t.sources g.owner g.key = g.sources := by
  unfold sources
  cases hfind : t.groups.find? fun g' => g'.owner == g.owner && g'.key == g.key with
  | none =>
    have := Array.find?_eq_none.1 hfind g (Array.mem_of_getElem? hg)
    simp at this
  | some g' =>
    have hid : g'.owner = g.owner ∧ g'.key = g.key := by simpa using Array.find?_some hfind
    obtain ⟨j, hj⟩ := Array.mem_iff_getElem?.1 (Array.mem_of_find?_eq_some hfind)
    obtain rfl := ht.unique j i g' g hj hg hid.1 hid.2
    rw [hg] at hj
    cases hj
    rfl

namespace Program

variable {p : Program} {i : Nat} {g : IdentityGroup} {m r b t : DeclId} {k : Atom}

/-- A member of a group that is no field of a table names the identity, is in no other group, and stands for no global. -/
theorem Built.member_of_group (hp : p.Built) (hg : p.identities.groups[i]? = some g) (hm : m ∈ g.members)
    (hf : ¬ p.arena.IsField m) : p.identities.group m = g.members ∧ p.arena.global? m = none ∧
      p.arena.OwnedBy m g.owner ∧ p.arena.key? m = some g.key := by
  obtain ⟨-, hhome⟩ := (hp.sound.identified.members i g hg m hm).resolve_left hf
  obtain ⟨ho, hk⟩ := (hp.recorded.named i g hg m hm).resolve_left hf
  have hhome : p.identities.home[m]? = some i := hhome
  exact ⟨by simp only [IdentityTable.group, hhome, hg], hp.bound.global?_of_ownedBy ho, ho, hk⟩

/-- The group of a read `t.k` is the one of its identity: the read is in it, what else is in it and no field of a table has the
same group, and all assignments to `t.k` are in it. -/
theorem Built.group_of_read (hp : p.Built) (hb : p.arena.kind? b = some (.getLocal t))
    (hr : p.arena.kind? r = some (.getMember b (.field k))) (hm : m ∈ p.identities.group r) :
    r ∈ p.identities.group r ∧
      (∀ a ∈ p.identities.group r, ¬ p.arena.IsField a →
        p.identities.group a = p.identities.group r ∧ p.arena.global? a = none) ∧
      ∀ f ∈ p.identities.sources t k, f ∈ p.identities.group r ∧
        (p.arena.IsField f ∨ ∃ base member value, p.arena.kind? f = some (.setMember base member value)) := by
  have hbase : p.arena.base? r = some b := by rw [Arena.base?, hr]; rfl
  have hkey : p.arena.key? r = some k := by rw [Arena.key?, hr]; rfl
  unfold IdentityTable.group at hm
  split at hm
  · next i hhome =>
    obtain ⟨g, hg, hmem⟩ := hp.sound.identified.tidy.home r i hhome
    obtain ⟨hgroup, -, ⟨base, e, hbase', hs, hlocal⟩, hkey'⟩ := hp.member_of_group hg hmem (Arena.not_field_of_base? hbase)
    obtain rfl : b = base := Option.some.inj (hbase.symm.trans hbase')
    -- the base is not in parentheses, so the owner is what it reads
    have hself : p.arena.unparen b = b := Arena.unparenFrom_self (by rw [hb]; simp) _
    obtain rfl : b = e := hself.symm.trans hs.unparen
    have howner : g.owner = t := by
      rcases hlocal with ⟨⟨_, _, _, _, hlocal⟩, -⟩ | hlocal <;> cases hb.symm.trans hlocal
      rfl
    have hsources : p.identities.sources t k = g.sources := by
      rw [← howner, ← Option.some.inj (hkey'.symm.trans hkey)]
      exact hp.sound.identified.tidy.sources_eq hg
    rw [hgroup, hsources]
    refine ⟨hmem, fun a ha hf => ?_, hp.recorded.sources i g hg⟩
    obtain ⟨hgroup', hglobal, -⟩ := hp.member_of_group hg ha hf
    exact ⟨hgroup', hglobal⟩
  · cases hm

end Program

namespace Env

variable {env : Env} {p : Program} {options : Options} {d e : DeclId} {ds : List DeclId} {kind : DeclKind}

/-- Where an annotation applies, only annotations and literals that narrow them contribute. -/
theorem Contributes.of_documented (h : env.Contributes ds e) (hdoc : ∃ m ∈ ds, ∃ doc, env.Annotates m doc) :
    (∃ m ∈ ds, env.Annotates m e) ∨
      env.options.literalNarrowing = true ∧ env.arena.isLiteral e = true ∧ ∃ m ∈ ds, env.arena.value? m = some e := by
  refine h.imp_right ?_
  rintro ⟨m, hm, hv, hnone | ⟨hnarrow, hliteral⟩⟩
  · obtain ⟨m', hm', doc, ha⟩ := hdoc
    exact absurd ha (hnone m' hm' doc)
  · exact ⟨hnarrow, hliteral, m, hm, hv⟩

/-- A declaration that has at most one merge by its kind is steady, whether it stands for a global or not. -/
theorem steady_of_merge (hk : env.arena.kind? d = some kind)
    (h : env.kindSteps d kind = [] ∨ ∃ e, env.kindSteps d kind = [.merge e]) : env.Steady d := by
  have hrule : env.declRule d = env.globalSteps d ++ env.kindSteps d kind := by rw [declRule, hk]
  rw [Steady, hrule, globalSteps]
  cases hg : env.arena.global? d with
  | none => exact h.imp id .inl
  | some g =>
    refine .inr (.inr ⟨_, _, rfl, fun st hst => ?_⟩)
    rcases List.mem_append.1 hst with hst | hst
    · split at hst
      · obtain ⟨e, rfl, -⟩ := mem_contributions.1 hst
        exact ⟨e, rfl⟩
      · cases hst
    · rcases h with h | ⟨e, h⟩
      · rw [h] at hst
        cases hst
      · rw [h] at hst
        exact ⟨e, List.mem_singleton.1 hst⟩

theorem steady_of_isStatic (hp : p.Built) (hk : p.arena.kind? d = some kind) (hs : kind.isStatic = true) :
    (Env.of p options).Steady d := by
  have hk' : (Env.of p options).arena.kind? d = some kind := hk
  cases kind with
  | docType ty | docParam _ ty | docOverload ty => exact steady_of_merge hk' (.inr ⟨ty, rfl⟩)
  | docClass => exact steady_of_merge hk' (.inl rfl)
  | literal _ | table _ =>
    refine .inr (.inr ⟨.leaf d, [], declRule_eq_kindSteps (hp.bound.global?_eq_none hk rfl) hk', by simp⟩)
  | function params returns isMethod =>
    refine .inr (.inr ⟨.leaf d, _, declRule_eq_kindSteps (hp.bound.global?_eq_none hk rfl) hk', fun st hst => ?_⟩)
    obtain ⟨e, -, rfl⟩ := List.mem_map.1 hst
    exact ⟨e, rfl⟩
  | _ => cases hs

/-- `r` reads the field `k` of the undocumented local `t` through the read `b` of it. The local is given the table
constructor `v`, and nothing else is ever assigned to it. -/
structure ReadsField (env : Env) (r b t v : DeclId) (k : Atom) (fields : List DeclId) : Prop where
  read : env.arena.kind? r = some (.getMember b (.field k))
  base : env.arena.kind? b = some (.getLocal t)
  given : ∃ name refs, env.arena.kind? t = some (.localVar name .plain (some v) refs) ∧
    ∀ use ∈ refs, ∀ target value, env.arena.kind? use ≠ some (.setLocal target value)
  table : env.arena.kind? v = some (.table fields)
  undocumented : env.annotations t = []

/-- What may contribute to a documented field: the annotations of the group, the literals that its members give where literals
narrow, and the fields of table constructors that define it. -/
def fieldOrigins (env : Env) (group fields : List DeclId) (k : Atom) : Set DeclId :=
  { d | (∃ m ∈ group, env.Annotates m d) ∨
    (env.options.literalNarrowing = true ∧ env.arena.isLiteral d = true ∧ ∃ m ∈ group, env.arena.value? m = some d) ∨
    env.arena.IsField d ∧ (d ∈ group ∨ d ∈ fields ∧ env.arena.key? d = some k) }

/-- The read, and the assignments in its group. -/
def fieldReaders (env : Env) (r : DeclId) : Set DeclId :=
  { a | a ∈ env.identities.group r ∧ (a = r ∨ ∃ base member value, env.arena.kind? a = some (.setMember base member value)) }

/-- What declarations of a documented identity contribute to one another. -/
theorem exists_merge_of_identitySteps {st : Step} {fields : List DeclId} {k : Atom}
    (hdoc : ∃ m ∈ env.identities.group d, ∃ doc, env.Annotates m doc) (hst : st ∈ env.identitySteps d) :
    ∃ e ∈ env.fieldOrigins (env.identities.group d) fields k, st = .merge e := by
  have htwins : env.twins d = env.identities.group d := by
    obtain ⟨m, hm, -⟩ := hdoc
    unfold twins
    split
    · next hnil =>
      rw [hnil] at hm
      cases hm
    · rfl
  rw [identitySteps_eq, mem_contributions, htwins] at hst
  obtain ⟨e, rfl, hc⟩ := hst
  exact ⟨e, (hc.of_documented hdoc).imp_right .inl, rfl⟩

/-- Origins are annotations, literals and fields. -/
theorem isStatic_or_isField {group fields : List DeclId} {k : Atom} (hd : d ∈ env.fieldOrigins group fields k) :
    (∃ kind, env.arena.kind? d = some kind ∧ kind.isStatic = true) ∨ env.arena.IsField d := by
  rcases hd with ⟨m, -, ha⟩ | ⟨-, hliteral, -⟩ | ⟨hfield, -⟩
  · exact .inl (isStatic_of_annotates ha)
  · exact .inl (isStatic_of_isLiteral hliteral)
  · exact .inr hfield

theorem steady_of_fieldOrigins {group fields : List DeclId} {k : Atom} (hp : p.Built)
    (hd : d ∈ (Env.of p options).fieldOrigins group fields k) : (Env.of p options).Steady d := by
  rcases isStatic_or_isField hd with ⟨kind, hk, hs⟩ | ⟨key, value, hk⟩
  · exact steady_of_isStatic hp hk hs
  · exact steady_of_merge hk (.inr ⟨value, rfl⟩)

theorem not_access_of_fieldOrigins {group fields : List DeclId} {k : Atom} (hd : d ∈ env.fieldOrigins group fields k)
    (hk : env.arena.kind? d = some kind) : kind.isAccess = false := by
  rcases isStatic_or_isField hd with ⟨kind', hk', hs⟩ | ⟨key, value, hk'⟩ <;> cases hk.symm.trans hk'
  · cases kind <;> first | rfl | cases hs
  · rfl

section
variable {r b t v : DeclId} {k : Atom} {fields : List DeclId} (hp : p.Built)
  (hr : (Env.of p options).ReadsField r b t v k fields)
include hp hr

/-- The base, the local and the table depend on nothing but one another. -/
theorem ReadsField.closed : (Env.of p options).Closed {b, t, v} := by
  obtain ⟨name, refs, ht, hassign⟩ := hr.given
  rintro d (rfl | rfl | rfl) st hst
  · rw [declRule_eq_kindSteps (hp.bound.global?_eq_none hr.base rfl) hr.base] at hst
    exact .inr ⟨t, by simp, List.mem_singleton.1 hst⟩
  · rw [declRule_eq_kindSteps (hp.bound.global?_eq_none ht rfl) ht] at hst
    simp only [kindSteps, localSteps, hr.undocumented, List.isEmpty_nil, if_true, List.nil_append, List.map_append,
      List.mem_cons, List.mem_append, List.mem_map, List.mem_filterMap] at hst
    rcases hst with rfl | (⟨e, ⟨use, huse, hvalue⟩, rfl⟩ | ⟨e, he, rfl⟩) | ⟨e, he, rfl⟩
    · exact .inl ⟨_, rfl⟩
    · split at hvalue
      · next hk => exact absurd hk (hassign use huse _ _)
      · cases hvalue
    · -- a plain local is no receiver
      simp [receiver?, isReceiver] at he
    · obtain rfl := List.mem_singleton.1 (List.mem_of_mem_filter he)
      exact .inr ⟨e, by simp, rfl⟩
  · rw [declRule_eq_kindSteps (hp.bound.global?_eq_none hr.table rfl) hr.table] at hst
    exact .inl ⟨_, List.mem_singleton.1 hst⟩

/-- What the base, the local and the table are by themselves has as `k` what the table and the group have. -/
theorem ReadsField.finds {d f : DeclId} {n : TypeNode} (hd : d ∈ ({b, t, v} : Set DeclId)) (hn : (Env.of p options).Owns d n)
    (hf : (Env.of p options).Finds k n f) : f ∈ p.identities.sources t k ∨ f ∈ fields ∧ p.arena.key? f = some k := by
  obtain ⟨name, refs, ht, -⟩ := hr.given
  have hleaf : ∀ kind, p.arena.kind? d = some kind → kind.isLinkable = false → (∀ x, kind ≠ .tyName x) →
      kind.isType = true ∧ n = .leaf d := by
    intro kind hk hl hname
    cases hn with
    | link hg => cases (hp.bound.global?_eq_none hk hl).symm.trans hg
    | leaf hk' htype =>
      cases hk.symm.trans hk'
      exact ⟨htype, rfl⟩
    | name hk' => exact absurd (Option.some.inj (hk.symm.trans hk')) (hname _)
  rcases hd with rfl | rfl | rfl
  · cases (hleaf _ hr.base rfl (by simp)).1
  · obtain ⟨-, rfl⟩ := hleaf _ ht rfl (by simp)
    cases hf with
    | table hk => rcases hk with hk | hk <;> cases ht.symm.trans hk
    | source hk hf => exact .inl hf
  · obtain ⟨-, rfl⟩ := hleaf _ hr.table rfl (by simp)
    cases hf with
    | table hk hf hkey =>
      rcases hk with hk | hk
      · cases hr.table.symm.trans hk
        exact .inr ⟨hf, hkey⟩
      · cases hr.table.symm.trans hk
    | source hk => cases hr.table.symm.trans hk

omit hp in
theorem ReadsField.isAccess {a : DeclId} (ha : a ∈ (Env.of p options).fieldReaders r) :
    ∃ kind, p.arena.kind? a = some kind ∧ kind.isAccess = true := by
  obtain ⟨-, rfl | ⟨base, member, value, hk⟩⟩ := ha
  · exact ⟨_, hr.read, rfl⟩
  · exact ⟨_, hk, rfl⟩

omit hp in
theorem ReadsField.apart {a : DeclId} {group : List DeclId} (ha : a ∈ (Env.of p options).fieldReaders r) :
    a ∉ (Env.of p options).fieldOrigins group fields k ∧ a ∉ ({b, t, v} : Set DeclId) := by
  obtain ⟨kind, hk, hkind⟩ := hr.isAccess ha
  obtain ⟨name, refs, ht, -⟩ := hr.given
  refine ⟨fun horigin => ?_, ?_⟩
  · rw [not_access_of_fieldOrigins horigin hk] at hkind
    cases hkind
  · rintro (rfl | rfl | rfl)
    · cases hk.symm.trans hr.base
      cases hkind
    · cases hk.symm.trans ht
      cases hkind
    · cases hk.symm.trans hr.table
      cases hkind

/-- The read and the assignments merge origins, and the read searches its base. -/
theorem ReadsField.mem_declRule {a : DeclId} {st : Step}
    (hdoc : ∃ m ∈ p.identities.group r, ∃ doc, (Env.of p options).Annotates m doc)
    (ha : a ∈ (Env.of p options).fieldReaders r) (hst : st ∈ (Env.of p options).declRule a) :
    (∃ e ∈ (Env.of p options).fieldOrigins (p.identities.group r) fields k, st = .merge e) ∨ st = .read b k := by
  obtain ⟨m, hm, -⟩ := id hdoc
  obtain ⟨-, hsame, -⟩ := hp.group_of_read hr.base hr.read hm
  have hfield : ¬ p.arena.IsField a := by
    rintro ⟨key, value, hk⟩
    obtain ⟨kind, hk', hkind⟩ := hr.isAccess ha
    cases hk.symm.trans hk'
    cases hkind
  obtain ⟨hgroup, hglobal⟩ := hsame a ha.1 hfield
  have hidentity : st ∈ (Env.of p options).identitySteps a →
      ∃ e ∈ (Env.of p options).fieldOrigins (p.identities.group r) fields k, st = .merge e := by
    intro hst
    rw [← hgroup] at hdoc ⊢
    exact exists_merge_of_identitySteps hdoc hst
  obtain ⟨-, rfl | ⟨base, member, value, hk⟩⟩ := ha
  · rw [declRule_eq_kindSteps hglobal hr.read] at hst
    exact (List.mem_append.1 hst).imp hidentity List.mem_singleton.1
  · rw [declRule_eq_kindSteps hglobal hk] at hst
    exact .inl (hidentity hst)

/-- The read and the assignments draw from annotations, literals and fields of table constructors. -/
theorem ReadsField.funnels (hdoc : ∃ m ∈ p.identities.group r, ∃ doc, (Env.of p options).Annotates m doc) :
    (Env.of p options).Funnels {b, t, v} ((Env.of p options).fieldOrigins (p.identities.group r) fields k)
      ((Env.of p options).fieldReaders r) := by
  obtain ⟨m, hm, -⟩ := id hdoc
  obtain ⟨-, -, hsources⟩ := hp.group_of_read hr.base hr.read hm
  refine ⟨hr.closed hp, fun e he => steady_of_fieldOrigins hp he, fun a ha => hr.apart ha, fun a ha st hst => ?_⟩
  refine (hr.mem_declRule hp hdoc ha hst).imp_right fun hread => ⟨b, by simp, k, hread, fun d hd n hn f hf => ?_⟩
  rcases hr.finds hp hd hn hf with hf | ⟨hf, hkey⟩
  · obtain ⟨hmem, hfield | hset⟩ := hsources f hf
    · exact .inl (.inr (.inr ⟨hfield, .inl hmem⟩))
    · exact .inr ⟨hmem, .inr hset⟩
  · exact .inl (.inr (.inr ⟨hp.grounded.fields v _ hr.table f hf, .inr ⟨hf, hkey⟩⟩))

end

end Env

/-! ## Queries -/

/-- `local n = 1; local t = { k = n }; local x`, then `---@type "on"` above `t.k = x`, and a read of `t.k`. -/
def Program.sampleDefault : Program :=
  (empty.build [.integer 1, .localVar "n" (some ⟨0⟩), .getLocal ⟨1⟩, .table [("k", ⟨2⟩)], .localVar "t" (some ⟨4⟩),
    .localVar "x" none, .getLocal ⟨5⟩, .getLocal ⟨6⟩, .setField ⟨7⟩ "k" ⟨8⟩, .tyString "on", .docType ⟨9⟩ ⟨10⟩,
    .getLocal ⟨5⟩, .getField ⟨12⟩ "k"]).2

theorem Env.readsField_sampleDefault : (Env.of .sampleDefault {}).ReadsField ⟨13⟩ ⟨12⟩ ⟨5⟩ ⟨4⟩ ⟨2⟩ [⟨3⟩] := by
  have hlocal : (Env.of .sampleDefault {}).arena.kind? ⟨5⟩ = some (.localVar ⟨3⟩ .plain (some ⟨4⟩) [⟨7⟩, ⟨12⟩]) := by
    decide +kernel
  have hreads : ∀ use ∈ [(⟨7⟩ : DeclId), ⟨12⟩], (Env.of .sampleDefault {}).arena.kind? use = some (.getLocal ⟨5⟩) := by
    decide +kernel
  refine ⟨by decide +kernel, by decide +kernel, ⟨_, _, hlocal, fun use huse target value hk => ?_⟩, by decide +kernel,
    by decide +kernel⟩
  rw [hreads use huse] at hk
  cases hk

namespace Session

variable {p : Program} {options : Options} {qs : List Query} {answers : List Answer} {s s' : Session}
  {node : Option TypeNode}

/-- A read of a documented field of a local has what its annotations have, what literals have that are assigned to it where
literals narrow, and what fields of table constructors have that define it. No other value that is assigned contributes,
whatever was asked before. -/
theorem compileDecl_documented_field {r b t v : DeclId} {k : Atom} {fields : List DeclId} (hp : p.Built)
    (hr : (Env.of p options).ReadsField r b t v k fields)
    (hdoc : ∃ m ∈ p.identities.group r, ∃ doc, (Env.of p options).Annotates m doc) (hqs : ∀ q ∈ qs, q.merges = false)
    (h : fresh.askAll (.of p options) qs = .ok (answers, s)) (hc : s.compileDecl (.of p options) r = .ok (node, s')) :
    ∀ n ∈ s'.cache.members node, ∃ d ∈ (Env.of p options).fieldOrigins (p.identities.group r) fields k,
      ∃ node' s'', s'.compileDecl (.of p options) d = .ok (node', s'') ∧ n ∈ s''.cache.members node' := by
  have hf := hr.funnels hp hdoc
  have hs := askAll_keeps _ Env.feeding_empty (Env.compileSlot_feeding hf) hqs h
  have hs' := Env.compileSlot_feeding hf _ _ _ _ _ hs hc
  have hvisit := compile_visits hs.1.wellFormed hc
  obtain ⟨m, hm, -⟩ := id hdoc
  have hreader : r ∈ (Env.of p options).fieldReaders r := ⟨(hp.group_of_read hr.base hr.read hm).1, .inl rfl⟩
  intro n hn
  rw [← hvisit.node] at hn
  obtain ⟨d, hd, hmem⟩ := (hs'.1.drawn r hreader).within n hn
  refine ⟨d, hd, ?_⟩
  cases hslot : s'.cache.slot? (.decl d) with
  | none =>
    rw [NodeCache.node?, hslot] at hmem
    cases hmem
  | some slot =>
    refine ⟨_, _, compile_of_slot hslot, ?_⟩
    rwa [(cache_hit ..).1, ← NodeCache.node?_of_slot? hslot]

/-- The read of `t.k`, after a query for the assignment: it has the documented text, and the local `n` with its number through
the field of the table; the local `x`, which is assigned, is not among its members. -/
theorem compileDecl_documented_field_default : ∃ answers s node s',
    fresh.askAll (.of .sampleDefault {}) [.decl ⟨9⟩] = .ok (answers, s) ∧
    s.compileDecl (.of .sampleDefault {}) ⟨13⟩ = .ok (node, s') ∧
    s'.cache.members node = [.leaf ⟨10⟩, .leaf ⟨1⟩, .leaf ⟨0⟩] ∧
    ∀ n ∈ s'.cache.members node, ∃ d ∈ (Env.of .sampleDefault {}).fieldOrigins [⟨3⟩, ⟨9⟩, ⟨13⟩] [⟨3⟩] ⟨2⟩,
      ∃ node' s'', s'.compileDecl (.of .sampleDefault {}) d = .ok (node', s'') ∧ n ∈ s''.cache.members node' := by
  have hbuilt : Program.sampleDefault.Built := ⟨_, .inl rfl⟩
  have hgroup : Program.sampleDefault.identities.group ⟨13⟩ = [⟨3⟩, ⟨9⟩, ⟨13⟩] := by decide +kernel
  have hdoc : ∃ m ∈ Program.sampleDefault.identities.group ⟨13⟩, ∃ doc, (Env.of .sampleDefault {}).Annotates m doc :=
    ⟨⟨9⟩, by rw [hgroup]; simp, ⟨11⟩, by decide +kernel, by decide +kernel⟩
  obtain ⟨⟨answers, s⟩, hask, hmembers⟩ := Except.exists_ok (x := fresh.askAll (.of .sampleDefault {}) [.decl ⟨9⟩])
    (f := fun r => (r.2.compileDecl (.of .sampleDefault {}) ⟨13⟩).toOption.map fun q => q.2.cache.members q.1)
    (b := some [.leaf ⟨10⟩, .leaf ⟨1⟩, .leaf ⟨0⟩]) (by decide +kernel)
  obtain ⟨⟨node, s'⟩, hcompile, hmembers⟩ := Except.exists_ok hmembers
  have horigins := compileDecl_documented_field hbuilt Env.readsField_sampleDefault hdoc (by decide) hask hcompile
  rw [hgroup] at horigins
  exact ⟨answers, s, node, s', hask, hcompile, hmembers, horigins⟩

/-- The value of the field of the table is no literal, and no annotation and no literal has it; the read has it all the
same. -/
theorem documented_field_leaks : (Env.of .sampleDefault {}).ReadsField ⟨13⟩ ⟨12⟩ ⟨5⟩ ⟨4⟩ ⟨2⟩ [⟨3⟩] ∧
    (Program.sampleDefault.identities.group ⟨13⟩).flatMap (Env.of .sampleDefault {}).annotations = [⟨11⟩] ∧
    ((Program.sampleDefault.identities.group ⟨13⟩).filterMap Program.sampleDefault.arena.value?).filter
      Program.sampleDefault.arena.isLiteral = [] ∧
    ∃ node s, fresh.compileDecl (.of .sampleDefault {}) ⟨13⟩ = .ok (node, s) ∧ .leaf ⟨1⟩ ∈ s.cache.members node ∧
      .leaf ⟨1⟩ ∉ s.cache.members (s.cache.node? (.decl ⟨11⟩)) := by
  refine ⟨Env.readsField_sampleDefault, by decide +kernel, by decide +kernel, ?_⟩
  obtain ⟨⟨node, s⟩, hcompile, hs⟩ := Except.exists_ok (x := fresh.compileDecl (.of .sampleDefault {}) ⟨13⟩)
    (f := fun r => (r.2.cache.members r.1, r.2.cache.members (r.2.cache.node? (.decl ⟨11⟩))))
    (b := ([.leaf ⟨10⟩, .leaf ⟨1⟩, .leaf ⟨0⟩], [.leaf ⟨10⟩])) (by decide +kernel)
  simp only [Prod.mk.injEq] at hs
  refine ⟨node, s, hcompile, ?_, ?_⟩
  · rw [hs.1]
    decide
  · rw [hs.2]
    decide

end Session

end LuaInfer
