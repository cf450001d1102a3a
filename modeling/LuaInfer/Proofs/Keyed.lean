import LuaInfer.Proofs.Balance
import LuaInfer.Proofs.Links
/-!
# A search finds what has the key

Tables, documented shapes and classes are filtered by the key at the time of the search. What is found on a local or on a
global is not: it is taken from an identity group or from the sites of a member as it is. `Program.Keyed` says that it has the
key all the same: the sources of a group have the key of the group, and the sites of a member have the key of the member.
Every edit keeps this (`Edit.keyed`), so every program that a script builds has it (`Program.Built.keyed`).

A search then keeps that it has found only declarations with the key, none of them twice (`Hunt.Keyed`), whatever the session
holds. `Session.search_keyed` is the result for the three public searches.
-/

namespace LuaInfer

/-- Declarations of the arena with that key, none of them twice. -/
def Arena.Keyed (a : Arena) (key : Atom) (ds : List DeclId) : Prop :=
  ds.Nodup ∧ ∀ d ∈ ds, d.index < a.size ∧ a.key? d = some key

theorem Arena.index_lt_of_key? {a : Arena} {d : DeclId} {key : Atom} (h : a.key? d = some key) : d.index < a.size := by
  obtain ⟨kind, hk, -⟩ := Option.bind_eq_some_iff.1 h
  exact index_lt_of_kind? hk

theorem Arena.key?_of_keyedFields {a : Arena} {value : DeclId} {entry : Atom × DeclId} (h : entry ∈ a.keyedFields value) :
    a.key? entry.2 = some entry.1 := by
  unfold keyedFields at h
  split at h
  · obtain ⟨f, -, hf⟩ := List.mem_filterMap.1 h
    obtain ⟨key, hkey, rfl⟩ := Option.map_eq_some_iff.1 hf
    exact hkey
  · cases h

/-! ## Identity groups and sites have keys -/

namespace Program

variable {p p' : Program} {d owner : DeclId} {key : Atom} {assigns : Bool} {g : GlobalId}

/-- Sources of a group have its key, and sites of a member have the key of the member. What stands for a global stands for
one of the registry. -/
structure Keyed (p : Program) : Prop where
  sources : ∀ (i : Nat) group, p.identities.groups[i]? = some group → ∀ m ∈ group.sources, p.arena.key? m = some group.key
  sites : ∀ parent key g, p.globals.getField? parent key = some g → ∀ d ∈ p.globals.sites g, p.arena.key? d = some key
  labelled : p.globals.Labelled
  linked : ∀ d g, p.arena.global? d = some g → g.index < p.globals.size

theorem Grows.key? (h : p.Grows p') (hk : p.arena.key? d = some key) : p'.arena.key? d = some key :=
  (h.agree.base? (Arena.index_lt_of_key? hk)).2.trans hk

/-- Growth without any new link. -/
theorem Keyed.grow (h : p.Keyed) (hg : p.Grows p') (hi : p'.identities = p.identities) (hr : p'.globals = p.globals)
    (hglobal : ∀ d, p'.arena.global? d = p.arena.global? d) : p'.Keyed where
  sources i group hgroup m hm := hg.key? (h.sources i group (hi ▸ hgroup) m hm)
  sites parent key g hf d hd := by
    rw [hr] at hf hd
    exact hg.key? (h.sites parent key g hf d hd)
  labelled := hr ▸ h.labelled
  linked d g hd := by
    rw [hr]
    rw [hglobal] at hd
    exact h.linked d g hd

/-- A declaration may be recorded under its own key. -/
theorem Keyed.record (h : p.Keyed) (ht : p.identities.Tidy) (hk : p.arena.key? d = some key) (owner : DeclId)
    (assigns : Bool) : Keyed { p with identities := p.identities.record owner key d assigns } := by
  obtain ⟨i, group, hr⟩ := IdentityTable.records_record ht owner key d assigns
  refine ⟨fun j group' hgroup' m hm => ?_, h.sites, h.labelled, h.linked⟩
  by_cases hj : j = i
  · -- the group of the record: it has the key, and so does what was a source of it before
    subst hj
    have hkey : group'.key = key := by
      rw [hr.here, Option.some.injEq] at hgroup'
      rw [← hgroup', hr.named.2]
    rw [hkey]
    rcases IdentityTable.mem_sources_record hgroup' hm with ⟨rfl, -⟩ | ⟨group₀, hgroup₀, hm₀⟩
    · exact hk
    · exact (hr.before group₀ hgroup₀).2 ▸ h.sources j group₀ hgroup₀ m hm₀
  · rw [hr.elsewhere j hj] at hgroup'
    exact h.sources j group' hgroup' m hm

theorem Keyed.recordFields {fields : List (Atom × DeclId)} {n : Nat} (h : p.Keyed) (hid : p.Identified n)
    (hf : ∀ entry ∈ fields, p.arena.IsField entry.2 ∧ p.arena.key? entry.2 = some entry.1) (owner : DeclId) :
    Keyed { p with identities := fields.foldl (fun t (key, f) => t.record owner key f true) p.identities } := by
  induction fields generalizing p with
  | nil => exact h
  | cons entry fields ih =>
    obtain ⟨hfield, hkey⟩ := hf entry (by simp)
    exact ih (h.record hid.tidy hkey owner true) (hid.recordField hfield owner entry.1) fun x hx => hf x (by simp [hx])

/-- A declaration may be linked to a global that is no member, or to the member that has its key. -/
theorem Keyed.link {target : GlobalId × Registry} (h : p.Keyed) (hx : p.globals.Extends target.2) (hl : target.2.Labelled)
    (hs : ∀ g, target.2.sites g = p.globals.sites g) (hg : target.1.index < target.2.size)
    (hnew : ∀ parent key, target.2.getField? parent key = some target.1 → p.arena.key? d = some key) (assigns : Bool) :
    (p.link target d assigns).Keyed := by
  have hgrow : p.Grows (p.link target d assigns) := (rebinds_link ..).grows
  -- members of the registry that is linked have their key before the site is added
  have hold : ∀ parent key g, target.2.getField? parent key = some g → ∀ e ∈ target.2.sites g,
      p.arena.key? e = some key := by
    intro parent key g hf e he
    rw [hs] at he
    by_cases hlt : g.index < p.globals.size
    · exact h.sites parent key g ((hx.field parent key g hlt).1 hf) e he
    · have hnone : p.globals.entity? g = none := Array.getElem?_eq_none (Nat.le_of_not_lt hlt)
      rw [Registry.sites, hnone] at he
      cases he
  refine ⟨fun i group hgroup m hm => hgrow.key? (h.sources i group hgroup m hm), fun parent key g hf e he => ?_, ?_,
    fun e g he => ?_⟩
  · refine hgrow.key? ?_
    cases assigns with
    | false => exact hold parent key g hf e he
    | true =>
      have hf' : target.2.getField? parent key = some g := Registry.getField?_addSite.symm.trans hf
      have he' : e ∈ (target.2.addSite target.1 d).sites g := he
      rw [Registry.sites_addSite hg] at he'
      split at he'
      · next heq =>
        rcases Distinct.mem_add.1 he' with he' | rfl
        · exact hold parent key g hf' e (heq ▸ he')
        · exact hnew parent key (heq ▸ hf')
      · exact hold parent key g hf' e he'
  · cases assigns with
    | false => exact hl
    | true => exact hl.addSite target.1 d
  · rw [size_globals_link]
    rcases global?_link he with ⟨-, rfl⟩ | he
    · exact hg
    · exact Nat.lt_of_lt_of_le (h.linked e g he) hx.size

theorem Keyed.linkRoot (h : p.Keyed) (d : DeclId) (category : Category) (name : Atom) (assigns : Bool) :
    (p.link (p.globals.ensure category name) d assigns).Keyed := by
  have hl := h.labelled.ensure category name
  have hlabel := Registry.label?_of_get? (Registry.get?_ensure p.globals category name)
  refine h.link (Registry.extends_ensure ..) hl (fun _ => Registry.sites_ensure) (Registry.index_lt_of_label? hlabel)
    (fun parent key hf => ?_) assigns
  rw [hl _ _ _ hf] at hlabel
  cases hlabel

theorem Keyed.linkMember (h : p.Keyed) (hg : g.index < p.globals.size) (hk : p.arena.key? d = some key) (assigns : Bool) :
    (p.link (p.globals.ensureField g key) d assigns).Keyed := by
  have hl := h.labelled.ensureField hg key
  have hlabel : (p.globals.ensureField g key).2.label? (p.globals.ensureField g key).1 = some (.var, some g, key) :=
    hl _ _ _ (by rw [Registry.getField?_ensureField hg, if_pos ⟨rfl, rfl⟩])
  refine h.link (Registry.extends_ensureField hg) hl (fun _ => Registry.sites_ensureField)
    (Registry.index_lt_of_label? hlabel) (fun parent key' hf => ?_) assigns
  rw [hl _ _ _ hf] at hlabel
  cases hlabel
  exact hk

theorem Keyed.linkFields {fields : List (Atom × DeclId)} (h : p.Keyed) (hg : g.index < p.globals.size)
    (hf : ∀ entry ∈ fields, p.arena.key? entry.2 = some entry.1) : (p.linkFields g fields).Keyed := by
  induction fields generalizing p with
  | nil => exact h
  | cons entry fields ih =>
    have hlink := h.linkMember hg (hf entry (by simp)) true
    refine ih hlink ?_ fun x hx => (rebinds_link ..).grows.key? (hf x (by simp [hx]))
    rw [size_globals_link]
    exact Nat.lt_of_lt_of_le hg (Registry.extends_ensureField hg).size

/-- An access has the key under which it is recorded and linked. -/
theorem Keyed.bindAccess {n : Nat} {base : DeclId} {member : Member} {value? : Option DeclId} (h : p.Keyed)
    (ht : p.identities.Tidy) (hk : p.arena.kind? ⟨n⟩ = some (.access base member value?)) (assigns : Bool) :
    (p.bindAccess ⟨n⟩ base member.key? assigns).Keyed := by
  unfold Program.bindAccess
  cases hkey : member.key? with
  | none => exact h
  | some key =>
    have hlast : p.arena.key? ⟨n⟩ = some key := by
      cases value? <;> simpa [Arena.key?, hk, DeclKind.access, DeclKind.key?] using hkey
    have hid : (p.identify ⟨n⟩ base key assigns).Keyed := by
      unfold identify
      split
      · exact h.record ht hlast _ assigns
      · exact h
    dsimp only
    split
    · next g hg =>
      rw [← globals_identify ⟨n⟩ base key assigns]
      refine hid.linkMember ?_ (by rw [arena_identify]; exact hlast) assigns
      rw [globals_identify]
      exact h.linked _ g hg
    · exact hid

end Program

theorem Edit.keyed {x y : Draft} (h : Edit x y) (hs : x.Sound) (hx : x.program.Keyed) : y.program.Keyed := by
  have hgrow := h.grows
  cases h with
  | intern => exact hx.grow hgrow rfl rfl fun _ => rfl
  | make | start => exact hx.grow hgrow rfl rfl fun _ => Arena.global?_push
  | note hf => exact hx.grow hgrow rfl rfl fun _ => Arena.global?_modify fun decl => (hf decl).2.1
  | record owner value =>
    exact hx.recordFields hs.identified
      (fun entry he => ⟨Program.keyedFields_isField hs.grounded he, Arena.key?_of_keyedFields he⟩) owner
  | access _ hk => exact hx.bindAccess hs.identified.tidy hk _
  | read | declare => exact hx.linkRoot _ _ _ _
  | @assign p n name value =>
    have hroot := Registry.label?_of_get? (Registry.get?_ensure p.globals .var name)
    refine (hx.linkRoot ⟨n⟩ .var name true).linkFields ?_ fun entry he =>
      (Program.rebinds_link ..).grows.key? (Arena.key?_of_keyedFields he)
    rw [Program.size_globals_link]
    exact Registry.index_lt_of_label? hroot

theorem Program.Built.keyed {p : Program} (h : p.Built) : p.Keyed := by
  have hempty : Program.empty.Keyed := by
    refine ⟨fun i group hgroup => ?_, fun parent key g hf => ?_, fun parent key g hf => ?_, fun d g hg => ?_⟩
    · simp [Program.empty, IdentityTable.empty] at hgroup
    · simp [Program.empty, Registry.empty, Registry.getField?, Registry.entity?] at hf
    · simp [Program.empty, Registry.empty, Registry.getField?, Registry.entity?] at hf
    · simp [Program.empty, Arena.global?, Arena.decl?, Arena.empty] at hg
  have hrun : ∀ x y, Edit.Run x y → x.Sound ∧ x.program.Keyed → y.Sound ∧ y.program.Keyed := by
    intro x y hr hx
    induction hr with
    | refl => exact hx
    | tail _ h ih => exact ⟨h.sound ih.1, h.keyed ih.1 ih.2⟩
  exact (hrun _ _ h.edits ⟨Draft.sound_empty, hempty⟩).2

/-! ## Searches keep the key -/

namespace Hunt

variable {a : Arena} {key : Atom} {h : Hunt} {ds : List DeclId}

/-- What was found so far has the key. -/
def Keyed (a : Arena) (key : Atom) (h : Hunt) : Prop := a.Keyed key h.found

theorem Keyed.add (hh : h.Keyed a key) (hds : ∀ d ∈ ds, a.key? d = some key) : (h.add ds).Keyed a key := by
  refine ⟨Distinct.nodup_append hh.1 ds, fun d hd => ?_⟩
  rcases mem_add.1 hd with hd | hd
  · exact hh.2 d hd
  · exact ⟨Arena.index_lt_of_key? (hds d hd), hds d hd⟩

theorem Keyed.watch (hh : h.Keyed a key) (guard : Guard GlobalId) : Keyed a key { h with guard } := hh

theorem keyed_nil {guard : Guard GlobalId} : Keyed a key { guard } := ⟨.nil, nofun⟩

theorem Keyed.close {found : List DeclId} (hh : h.Keyed a key) (hc : h.close = .ok found) : a.Keyed key found :=
  close_ok hc ▸ hh

end Hunt

namespace Env

variable {p : Program} {options : Options} {key : Atom} {h h' : Hunt}

section Keyed

variable (hp : p.Keyed)
include hp

theorem key?_of_leafFields {d e : DeclId} (he : e ∈ (Env.of p options).leafFields d key) : p.arena.key? e = some key := by
  unfold leafFields at he
  split at he
  · exact (mem_fieldsNamed.1 he).2
  · exact (mem_fieldsNamed.1 he).2
  · unfold IdentityTable.sources at he
    split at he
    · next group hgroup =>
      obtain ⟨i, hi⟩ := Array.mem_iff_getElem?.1 (Array.mem_of_find?_eq_some hgroup)
      have hnamed := Array.find?_some hgroup
      simp only [Bool.and_eq_true, beq_iff_eq] at hnamed
      exact hnamed.2 ▸ hp.sources i group hi e he
    · cases he
  · cases he

theorem key?_of_variableFields {g : GlobalId} {e : DeclId} (he : e ∈ (Env.of p options).variableFields g key) :
    p.arena.key? e = some key := by
  unfold variableFields at he
  split at he
  · next sub hsub => exact hp.sites g key sub hsub e he
  · cases he

section Classes

variable {classes : GlobalId → Hunt → Except Fault Hunt}
  (hc : ∀ g h h', h.Keyed p.arena key → classes g h = .ok h' → h'.Keyed p.arena key)
include hc

theorem huntGlobal_keyed {g : GlobalId} (hh : h.Keyed p.arena key)
    (hr : (Env.of p options).huntGlobal key classes g h = .ok h') : h'.Keyed p.arena key := by
  unfold huntGlobal at hr
  split at hr
  · cases hr
    exact hh.add fun _ => key?_of_variableFields hp
  · exact hc g h h' hh hr
  · cases hr
    exact hh

theorem huntSource_keyed {source : DeclId} (hh : h.Keyed p.arena key)
    (hr : (Env.of p options).huntSource key classes h source = .ok h') : h'.Keyed p.arena key := by
  have hleaf : (h.add ((Env.of p options).leafFields source key)).Keyed p.arena key :=
    hh.add fun _ => key?_of_leafFields hp
  unfold huntSource at hr
  dsimp only at hr
  split at hr
  · exact huntGlobal_keyed hp hc hleaf hr
  · cases hr
    exact hleaf

omit hp in
theorem huntSuper_keyed {super : DeclId} (hh : h.Keyed p.arena key)
    (hr : (Env.of p options).huntSuper classes h super = .ok h') : h'.Keyed p.arena key := by
  unfold huntSuper at hr
  split at hr
  · split at hr
    · exact hc _ _ _ hh hr
    · cases hr
      exact hh
  · cases hr
    exact hh

/-- What one declaration of a class has by itself is collected apart, and added to what was found before. -/
theorem huntSite_keyed {site : DeclId} (hh : h.Keyed p.arena key)
    (hr : (Env.of p options).huntSite key classes h site = .ok h') : h'.Keyed p.arena key := by
  unfold huntSite at hr
  split at hr
  · next name supers fields sources hk =>
    obtain ⟨own, hown, hr⟩ := Except.bind_ok hr
    have hfields : Hunt.Keyed p.arena key (.add { guard := h.guard } ((Env.of p options).fieldsNamed fields key)) :=
      Hunt.keyed_nil.add fun _ hf => (mem_fieldsNamed.1 hf).2
    have hown : own.Keyed p.arena key :=
      Except.foldlM_ok (Hunt.Keyed p.arena key) (fun _ _ _ _ ha hstep => huntSource_keyed hp hc ha hstep) hfields hown
    split at hr
    · exact Except.foldlM_ok (Hunt.Keyed p.arena key) (fun _ _ _ _ ha hstep => huntSuper_keyed hc ha hstep)
        (hh.watch own.guard) hr
    · cases hr
      exact (hh.watch own.guard).add fun d hd => (hown.2 d hd).2
  · cases hr
    exact hh

end Classes

theorem huntClassFrom_keyed {fuel : Nat} {g : GlobalId} (hh : h.Keyed p.arena key)
    (hr : (Env.of p options).huntClassFrom key fuel g h = .ok h') : h'.Keyed p.arena key := by
  induction fuel generalizing g h h' with
  | zero => cases hr
  | succ fuel ih =>
    rw [huntClassFrom] at hr
    split at hr
    · next guard _ =>
      obtain ⟨found, hfound, hr⟩ := Except.bind_ok hr
      obtain ⟨guard', -, hr⟩ := Except.bind_ok hr
      cases hr
      have hkeyed : found.Keyed p.arena key := Except.foldlM_ok (Hunt.Keyed p.arena key)
        (fun _ _ _ _ ha hstep => huntSite_keyed hp (fun _ _ _ hh hr => ih hh hr) ha hstep) (hh.watch guard) hfound
      exact hkeyed.watch guard'
    · cases hr
      exact hh

variable {compile : SlotKey → Resolve (Option TypeNode)} {s s' : Session} {fuel : Nat}

/-- Whatever the members of a node are, and whatever a substitution resolves to. -/
theorem huntNode_keyed {node : TypeNode} (hh : h.Keyed p.arena key)
    (hr : ((Env.of p options).huntNode compile key fuel h node).run s = .ok (h', s')) : h'.Keyed p.arena key := by
  induction fuel generalizing h h' node s s' with
  | zero => cases hr
  | succ fuel ih =>
    cases node with
    | leaf d =>
      obtain ⟨rfl, -⟩ := Resolve.pure_ok hr
      exact hh.add fun _ => key?_of_leafFields hp
    | global g => exact huntGlobal_keyed hp (fun _ _ _ => huntClassFrom_keyed hp) hh (Resolve.lift_ok hr).1
    | generic i =>
      obtain ⟨resolved, t, -, hr⟩ := Resolve.bind_ok hr
      exact Resolve.foldMembers_ok (fun h _ => Hunt.Keyed p.arena key h) (fun _ _ _ _ _ _ hh hr => ih hh hr) hh hr
    | union u => exact Resolve.foldMembers_ok (fun h _ => Hunt.Keyed p.arena key h) (fun _ _ _ _ _ _ hh hr => ih hh hr) hh hr

theorem searchNode_keyed {node : TypeNode} {found : List DeclId}
    (hr : ((Env.of p options).searchNode compile fuel node key).run s = .ok (found, s')) : p.arena.Keyed key found := by
  obtain ⟨h, t, hh, hr⟩ := Resolve.bind_ok hr
  exact (huntNode_keyed hp Hunt.keyed_nil hh).close (Resolve.lift_ok hr).1

theorem searchMember_keyed {base : DeclId} {found : List DeclId}
    (hr : ((Env.of p options).searchMember compile fuel base key).run s = .ok (found, s')) : p.arena.Keyed key found := by
  obtain ⟨h, t, hh, hr⟩ := Resolve.bind_ok hr
  obtain ⟨node, t', -, hh⟩ := Resolve.bind_ok hh
  have hkeyed : h.Keyed p.arena key := Resolve.foldMembers_ok (fun h _ => Hunt.Keyed p.arena key h)
    (fun _ _ _ _ _ _ hh hr => huntNode_keyed hp hh hr) Hunt.keyed_nil hh
  exact hkeyed.close (Resolve.lift_ok hr).1

theorem searchClass_keyed {g : GlobalId} {found : List DeclId} (hr : (Env.of p options).searchClass g key = .ok found) :
    p.arena.Keyed key found := by
  obtain ⟨h, hh, hr⟩ := Except.bind_ok hr
  exact (huntClassFrom_keyed hp Hunt.keyed_nil hh).close hr

end Keyed

end Env

/-! ## Queries -/

/-- `local t = { k = 1 }` below `---@class C` with `---@field k 2`, then `(t).k = 1`. The same table is assigned to `G`, below the
same class, and then `G["k"] = 1`. -/
def Program.sampleShared : Program :=
  (empty.build [.integer 1, .table [("k", ⟨0⟩)], .localVar "t" (some ⟨2⟩), .docClass "C" [], .tyInteger 2,
    .docField ⟨4⟩ "k" ⟨5⟩, .bind ⟨4⟩ ⟨3⟩, .getLocal ⟨3⟩, .paren ⟨7⟩, .setField ⟨8⟩ "k" ⟨0⟩, .setGlobal "G" ⟨2⟩,
    .bind ⟨4⟩ ⟨10⟩, .getGlobal "G", .setIndex ⟨11⟩ (some "k") ⟨0⟩]).2

namespace Session

/-- A search finds declarations of the program that have the key, each of them once: the search of a node of any sort, of
a declaration and of a class, in any session. -/
theorem search_keyed {p : Program} (hp : p.Built) (options : Options) (s : Session) (key : Atom) :
    (∀ node found s', s.searchNode (.of p options) node key = .ok (found, s') → p.arena.Keyed key found) ∧
    (∀ base found s', s.searchMember (.of p options) base key = .ok (found, s') → p.arena.Keyed key found) ∧
    ∀ g, ∃ found, (Env.of p options).searchClass g key = .ok found ∧ p.arena.Keyed key found := by
  refine ⟨fun node found s' hr => Env.searchNode_keyed hp.keyed hr, fun base found s' hr =>
    Env.searchMember_keyed hp.keyed hr, fun g => ?_⟩
  obtain ⟨found, hr⟩ := Env.searchClass_returns (.of p options) g key
  exact ⟨found, hr, Env.searchClass_keyed hp.keyed hr⟩

/-- `t` is a local, an object of the class and a table. The field of the table, which defines `k` on all three, on the class
through the local and through `G`, is found once. -/
theorem search_keyed_shared : ∃ s', fresh.searchMember (.of .sampleShared {}) ⟨7⟩ ⟨1⟩ =
      .ok ([⟨1⟩, ⟨9⟩, ⟨6⟩, ⟨12⟩], s') ∧ Program.sampleShared.arena.Keyed ⟨1⟩ [⟨1⟩, ⟨9⟩, ⟨6⟩, ⟨12⟩] := by
  have hbuilt : Program.sampleShared.Built := ⟨_, .inl rfl⟩
  obtain ⟨⟨found, s'⟩, hr, hfound⟩ := Except.exists_ok (x := fresh.searchMember (.of .sampleShared {}) ⟨7⟩ ⟨1⟩)
    (f := Prod.fst) (b := [⟨1⟩, ⟨9⟩, ⟨6⟩, ⟨12⟩]) (by decide +kernel)
  cases hfound
  exact ⟨s', hr, (search_keyed hbuilt {} fresh ⟨1⟩).2.1 _ _ _ hr⟩

end Session

end LuaInfer
