import LuaInfer.Proofs.Derive
import LuaInfer.Proofs.Run
/-!
# Searching nodes that are no substitutions

A declaration and a global are searched without looking at the session. So the search of a node whose
members are such (`TypeNode.IsPlain`) leaves the session as it is, and its result is a function of the
members (`Env.searchPlain`). Whatever it finds, the relation `Env.Finds` knows.
-/

namespace LuaInfer

/-- A declaration or a global. -/
def TypeNode.IsPlain : TypeNode → Prop
  | .leaf _ | .global _ => True
  | .generic _ | .union _ => False

theorem Registry.category?_of_get? {r : Registry} {category : Category} {name : Atom} {g : GlobalId}
    (h : r.get? category name = some g) : r.category? g = some category := by
  obtain ⟨e, he, -, hcategory, -⟩ := r.rooted category name g h
  rw [category?, entity?, he, Option.map_some, hcategory]

theorem Hunt.mem_add {h : Hunt} {ds : List DeclId} {e : DeclId} : e ∈ (h.add ds).found ↔ e ∈ h.found ∨ e ∈ ds :=
  Distinct.mem_append

theorem Hunt.close_ok {h : Hunt} {found : List DeclId} (hc : h.close = .ok found) : found = h.found := by
  obtain ⟨_, -, hr⟩ := Except.bind_ok hc
  cases hr
  rfl

namespace Env

variable {env : Env} {name : Atom} {h h' : Hunt} {e : DeclId}

/-! ## What is found -/

theorem mem_fieldsNamed {fields : List DeclId} : e ∈ env.fieldsNamed fields name ↔
    e ∈ fields ∧ env.arena.key? e = some name := by
  simp only [fieldsNamed, List.mem_filter, beq_iff_eq]

theorem finds_of_mem_leafFields {d : DeclId} (he : e ∈ env.leafFields d name) : env.Finds name (.leaf d) e := by
  unfold leafFields at he
  split at he
  · next hk => exact .table (.inl hk) (mem_fieldsNamed.1 he).1 (mem_fieldsNamed.1 he).2
  · next hk => exact .table (.inr hk) (mem_fieldsNamed.1 he).1 (mem_fieldsNamed.1 he).2
  · next hk => exact .source hk he
  · cases he

/-- A way to search classes that finds only what there is. -/
def Honest (env : Env) (name : Atom) (classes : GlobalId → Hunt → Except Fault Hunt) : Prop :=
  ∀ g h h', env.globals.category? g = some .type → classes g h = .ok h' →
    ∀ e ∈ h'.found, e ∈ h.found ∨ env.Finds name (.global g) e

section Classes

variable {classes : GlobalId → Hunt → Except Fault Hunt} (hc : env.Honest name classes)
include hc

theorem huntGlobal_finds {g : GlobalId} (hr : env.huntGlobal name classes g h = .ok h') (he : e ∈ h'.found) :
    e ∈ h.found ∨ env.Finds name (.global g) e := by
  unfold huntGlobal at hr
  split at hr
  · next hv =>
    cases hr
    refine (Hunt.mem_add.1 he).imp_right fun he => ?_
    unfold variableFields at he
    split at he
    · next sub hs => exact .site hv hs he
    · cases he
  · next ht => exact hc g h h' ht hr e he
  · cases hr
    exact .inl he

/-- One declaration of a class: its fields, then its sources one by one, or else its superclasses. -/
theorem huntSite_finds {g : GlobalId} {site : DeclId} (hg : env.globals.category? g = some .type)
    (hsite : site ∈ env.globals.sites g) (hr : env.huntSite name classes h site = .ok h') (he : e ∈ h'.found) :
    e ∈ h.found ∨ env.Finds name (.global g) e := by
  unfold huntSite at hr
  split at hr
  · next x supers fields sources hk =>
    obtain ⟨own, hown, hr⟩ := Except.bind_ok hr
    have hsources : ∀ e ∈ own.found, env.Finds name (.global g) e := by
      refine Except.foldlM_ok (fun o : Hunt => ∀ e ∈ o.found, env.Finds name (.global g) e) ?_ ?_ hown
      · intro d hd a a' ha hstep e he
        have hleaf : ∀ e ∈ (a.add (env.leafFields d name)).found, env.Finds name (.global g) e := fun e he =>
          (Hunt.mem_add.1 he).elim (ha e) fun he => .beneath hg hsite hk hd (finds_of_mem_leafFields he)
        unfold huntSource at hstep
        dsimp only at hstep
        split at hstep
        · next g' hg' =>
          exact (huntGlobal_finds hc hstep he).elim (hleaf e) fun he => .beneathGlobal hg hsite hk hd hg' he
        · cases hstep
          exact hleaf e he
      · intro e he
        obtain ⟨hf, hn⟩ := mem_fieldsNamed.1 (by simpa using he)
        exact .field hg hsite hk hf hn
    split at hr
    · -- nothing of its own: the superclasses are searched, with what was found before
      refine Except.foldlM_ok (fun o : Hunt => ∀ e ∈ o.found, e ∈ h.found ∨ env.Finds name (.global g) e) ?_ ?_
        hr e he
      · intro p hp a a' ha hstep e he
        unfold huntSuper at hstep
        split at hstep
        · next y hy =>
          split at hstep
          · next g' hg' =>
            rcases hc g' a a' (Registry.category?_of_get? hg') hstep e he with he | he
            · exact ha e he
            · exact .inr (.super hg hsite hk hp hy hg' he)
          · cases hstep
            exact ha e he
        · cases hstep
          exact ha e he
      · exact fun e he => .inl he
    · cases hr
      exact (Hunt.mem_add.1 he).imp_right (hsources e)
  · cases hr
    exact .inl he

end Classes

theorem huntClassFrom_honest (fuel : Nat) : env.Honest name (env.huntClassFrom name fuel) := by
  induction fuel with
  | zero => intro g h h' _ hr; cases hr
  | succ fuel ih =>
    intro g h h' hg hr e he
    rw [huntClassFrom] at hr
    split at hr
    · obtain ⟨a, ha, hr⟩ := Except.bind_ok hr
      obtain ⟨guard, -, hr⟩ := Except.bind_ok hr
      cases hr
      refine Except.foldlM_ok (fun o : Hunt => ∀ e ∈ o.found, e ∈ h.found ∨ env.Finds name (.global g) e) ?_ ?_
        ha e he
      · intro site hsite o o' ho hstep e he
        exact (huntSite_finds ih hg hsite hstep he).elim (ho e) .inr
      · exact fun e he => .inl he
    · cases hr
      exact .inl he

/-! ## Plain searches -/

/-- Searches a node without a session. -/
def huntPlain (env : Env) (name : Atom) (h : Hunt) : TypeNode → Except Fault Hunt
  | .leaf d => .ok (h.add (env.leafFields d name))
  | .global g => env.huntGlobal name (env.huntClass name) g h
  | _ => .ok h

/-- Searches nodes without a session. -/
def searchPlain (env : Env) (ns : List TypeNode) (name : Atom) : Except Fault (List DeclId) := do
  let h ← ns.foldlM (env.huntPlain name) env.hunt
  h.close

theorem searchPlain_finds {ns : List TypeNode} {found : List DeclId} (hr : env.searchPlain ns name = .ok found)
    (he : e ∈ found) : ∃ n ∈ ns, env.Finds name n e := by
  obtain ⟨o, ho, hr⟩ := Except.bind_ok hr
  rw [Hunt.close_ok hr] at he
  refine Except.foldlM_ok (fun o : Hunt => ∀ e ∈ o.found, ∃ n ∈ ns, env.Finds name n e) ?_ ?_ ho e he
  · intro n hn a a' ha hstep e he
    cases n with
    | leaf d =>
      cases hstep
      exact (Hunt.mem_add.1 he).elim (ha e) fun he => ⟨_, hn, finds_of_mem_leafFields he⟩
    | global g => exact (huntGlobal_finds (huntClassFrom_honest _) hstep he).elim (ha e) fun he => ⟨_, hn, he⟩
    | generic i => cases hstep; exact ha e he
    | union u => cases hstep; exact ha e he
  · intro e he
    cases he

variable {compile : SlotKey → Resolve (Option TypeNode)} {s s' : Session}

theorem huntNode_plain {fuel : Nat} {n : TypeNode} (hn : n.IsPlain)
    (hr : (env.huntNode compile name fuel h n).run s = .ok (h', s')) : env.huntPlain name h n = .ok h' ∧ s' = s := by
  cases fuel with
  | zero => cases hr
  | succ fuel =>
    cases n with
    | leaf d => obtain ⟨rfl, rfl⟩ := Resolve.pure_ok hr; exact ⟨rfl, rfl⟩
    | global g => exact Resolve.lift_ok hr
    | generic i => cases hn
    | union u => cases hn

theorem foldMembers_plain {fuel depth position : Nat} {node : Option TypeNode}
    (hn : ∀ n ∈ s.cache.members node, n.IsPlain)
    (hr : (Resolve.foldMembers (env.huntNode compile name depth) fuel ⟨node, position⟩ h).run s = .ok (h', s')) :
    ((s.cache.members node).drop position).foldlM (env.huntPlain name) h = .ok h' ∧ s' = s := by
  induction fuel generalizing position h with
  | zero => cases hr
  | succ fuel ih =>
    rw [Resolve.foldMembers] at hr
    obtain ⟨_, _, hg, hr⟩ := Resolve.bind_ok hr
    cases hg
    cases hp : (s.cache.members node)[position]? with
    | none =>
      simp only [Cursor.next?, hp, Option.map_none] at hr
      obtain ⟨rfl, rfl⟩ := Resolve.pure_ok hr
      rw [List.drop_eq_nil_of_le (List.getElem?_eq_none_iff.1 hp)]
      exact ⟨rfl, rfl⟩
    | some n =>
      simp only [Cursor.next?, hp, Option.map_some] at hr
      obtain ⟨a, t, hf, hrest⟩ := Resolve.bind_ok hr
      obtain ⟨hpos, hget⟩ := List.getElem?_eq_some_iff.1 hp
      obtain ⟨hplain, rfl⟩ := huntNode_plain (hn n (List.mem_of_getElem? hp)) hf
      rw [List.drop_eq_getElem_cons hpos, hget, List.foldlM_cons, hplain]
      exact ih hrest

/-- The search of a declaration whose members are plain. -/
theorem searchMember_plain {fuel : Nat} {base : DeclId} {found : List DeclId}
    (hn : ∀ node t, (compile (.decl base)).run s = .ok (node, t) → ∀ n ∈ t.cache.members node, n.IsPlain)
    (hr : (env.searchMember compile fuel base name).run s = .ok (found, s')) :
    ∃ node, (compile (.decl base)).run s = .ok (node, s') ∧ env.searchPlain (s'.cache.members node) name = .ok found := by
  obtain ⟨o, t, ho, hr⟩ := Resolve.bind_ok hr
  obtain ⟨hclose, rfl⟩ := Resolve.lift_ok hr
  obtain ⟨node, t', hb, ho⟩ := Resolve.bind_ok ho
  obtain ⟨hfold, rfl⟩ := foldMembers_plain (hn node t' hb) ho
  refine ⟨node, hb, ?_⟩
  rw [List.drop_zero] at hfold
  rw [searchPlain, hfold]
  exact hclose

theorem searchNode_plain {fuel : Nat} {n : TypeNode} {found : List DeclId} (hn : n.IsPlain)
    (hr : (env.searchNode compile fuel n name).run s = .ok (found, s')) :
    env.searchPlain [n] name = .ok found ∧ s' = s := by
  obtain ⟨o, t, ho, hr⟩ := Resolve.bind_ok hr
  obtain ⟨hclose, rfl⟩ := Resolve.lift_ok hr
  obtain ⟨hplain, rfl⟩ := huntNode_plain hn ho
  refine ⟨?_, rfl⟩
  rw [searchPlain, List.foldlM_cons, hplain]
  exact hclose

end Env

end LuaInfer
