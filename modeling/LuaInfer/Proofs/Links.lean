import LuaInfer.Proofs.Naming
import LuaInfer.Proofs.Search
/-!
# What stands for a global, and what shares an identity

A class stands for a type. An access stands for a member of a global only if its base is something that may stand for one,
parentheses aside. `Program.Bound` says this of all declarations that stand for a global. The members of an identity group
name the identity, unless they are fields of a table, and its sources give a value (`Program.Recorded`). So an access of a local
stands for no global (`Program.Bound.global?_of_ownedBy`).

Every edit keeps both. `Program.Built.bound` and `Program.Built.recorded` are the results for every program that a script
builds.
-/

namespace LuaInfer

namespace Registry

/-- Globals of `r` are of the same category in `r'`. -/
def Sorts (r r' : Registry) : Prop := ∀ g category, r.category? g = some category → r'.category? g = some category

variable {r r' : Registry} {g parent : GlobalId} {category : Category} {name : Atom} {d : DeclId}

theorem sorts_of_label? (h : ∀ g l, r.label? g = some l → r'.label? g = some l) : r.Sorts r' := by
  intro g c hc
  obtain ⟨e, he, rfl⟩ := Option.map_eq_some_iff.1 hc
  obtain ⟨e', he', hl⟩ := Option.map_eq_some_iff.1 (h g _ (by rw [label?, he, Option.map_some]))
  rw [category?, he', Option.map_some]
  exact congrArg (fun l => some l.1) hl

theorem sorts_ensure : r.Sorts (r.ensure category name).2 :=
  sorts_of_label? fun _ _ => label?_ensure_of_some

theorem sorts_ensureField : r.Sorts (r.ensureField parent name).2 :=
  sorts_of_label? fun _ _ => label?_ensureField_of_some

theorem sorts_addSite : r.Sorts (r.addSite g d) :=
  sorts_of_label? fun _ _ => label?_addSite.trans

end Registry

theorem DeclKind.isLinkable_core (kind : DeclKind) : kind.core.isLinkable = kind.isLinkable := by
  cases kind <;> rfl

namespace Program

variable {p p' : Program} {d : DeclId} {kind kind' : DeclKind} {g : GlobalId}

/-- What a declaration of this kind needs to stand for a global. -/
def Stands (p : Program) (d : DeclId) (kind : DeclKind) (g : GlobalId) : Prop :=
  match kind with
  | .getGlobal .. | .setGlobal .. | .tableField .. => True
  | .getMember base _ | .setMember base _ _ =>
    ∃ e, p.arena.Strips (d.index + 1) base e ∧ (p.arena.kind? e).any DeclKind.isLinkable = true
  | .docClass .. => p.globals.category? g = some .type
  | _ => False

/-- What stands for a global is such that it may. -/
def Bound (p : Program) : Prop :=
  ∀ d kind g, p.arena.kind? d = some kind → p.arena.global? d = some g → p.Stands d kind g

theorem Grows.isLinkable (h : p.Grows p') (hd : (p.arena.kind? d).any DeclKind.isLinkable = true) :
    (p'.arena.kind? d).any DeclKind.isLinkable = true := by
  obtain ⟨kind, hk, hl⟩ := (Option.any_eq_true _ _).1 hd
  obtain ⟨kind', hk', hcore⟩ := h.core d kind hk
  rw [hk', Option.any_some, ← DeclKind.isLinkable_core, hcore, DeclKind.isLinkable_core]
  exact hl

theorem Stands.grow (h : p.Stands d kind g) (hk : p.arena.kind? d = some kind) (hg : p.Grows p')
    (hr : p.globals.Sorts p'.globals) (hcore : kind'.core = kind.core) : p'.Stands d kind' g := by
  have hagree : p.arena.Agree p'.arena (d.index + 1) := hg.agree.mono (Arena.index_lt_of_kind? hk)
  by_cases hfixed : kind.isFixed = true
  · obtain rfl := DeclKind.eq_of_core hcore hfixed
    cases kind' with
    | getMember base member | setMember base member value =>
      obtain ⟨e, hs, hl⟩ := h
      exact ⟨e, hagree.strips hs, hg.isLinkable hl⟩
    | docClass name supers fields sources => exact hr g _ h
    | _ => exact h
  · cases kind with
    | docClass name supers fields sources =>
      cases kind' with
      | docClass => exact hr g _ h
      | _ => cases hcore
    | _ => first | exact absurd rfl hfixed | cases h

theorem Bound.grow (h : p.Bound) (hg : p.Grows p') (hr : p.globals.Sorts p'.globals)
    (hglobal : ∀ d, p'.arena.global? d = p.arena.global? d) : p'.Bound := by
  intro d kind' g hk' hgd
  rw [hglobal] at hgd
  obtain ⟨decl, hd, -⟩ := Option.bind_eq_some_iff.1 hgd
  have hk : p.arena.kind? d = some decl.kind := by rw [Arena.kind?, hd, Option.map_some]
  obtain ⟨kind'', hk'', hcore⟩ := hg.core d _ hk
  rw [hk'] at hk''
  cases hk''
  exact (h d _ g hk hgd).grow hk hg hr hcore

theorem sorts_link {target : GlobalId × Registry} {assigns : Bool} (hr : p.globals.Sorts target.2) :
    p.globals.Sorts (p.link target d assigns).globals := by
  unfold link
  split
  · exact fun g c hc => Registry.sorts_addSite g c (hr g c hc)
  · exact hr

theorem global?_link {target : GlobalId × Registry} {e : DeclId} {assigns : Bool}
    (h : (p.link target d assigns).arena.global? e = some g) : e = d ∧ g = target.1 ∨ p.arena.global? e = some g := by
  unfold link Arena.global? at h
  rw [Arena.decl?_modify] at h
  split at h
  · next he =>
    obtain ⟨decl, hdecl, hg⟩ := Option.bind_eq_some_iff.1 h
    obtain ⟨old, -, rfl⟩ := Option.map_eq_some_iff.1 hdecl
    cases hg
    exact .inl ⟨he, rfl⟩
  · exact .inr h

/-- A declaration may be linked to a global that it may stand for. -/
theorem Bound.link {target : GlobalId × Registry} {assigns : Bool} (h : p.Bound) (hr : p.globals.Sorts target.2)
    (hnew : ∀ kind, p.arena.kind? d = some kind → (p.link target d assigns).Stands d kind target.1) :
    (p.link target d assigns).Bound := by
  intro e kind g hk hg
  have hrebinds : p.Rebinds (p.link target d assigns) := rebinds_link ..
  rw [hrebinds.kind?] at hk
  rcases global?_link hg with ⟨rfl, rfl⟩ | hold
  · exact hnew kind hk
  · exact (h e kind g hk hold).grow hk hrebinds.grows (sorts_link hr) rfl

theorem Bound.linkFields {fields : List (Atom × DeclId)} (h : p.Bound)
    (hf : ∀ entry ∈ fields, p.arena.IsField entry.2) (g : GlobalId) : (p.linkFields g fields).Bound := by
  induction fields generalizing p with
  | nil => exact h
  | cons entry fields ih =>
    refine ih (h.link Registry.sorts_ensureField fun kind hk => ?_) fun x hx => ?_
    · obtain ⟨key, value, hfield⟩ := hf entry (by simp)
      rw [hfield] at hk
      cases hk
      trivial
    · exact (rebinds_link ..).grows.isField (hf x (by simp [hx]))

theorem Stands.isLinkable (h : p.Stands d kind g) : kind.isLinkable = true := by
  cases kind <;> first | rfl | cases h

theorem Bound.isLinkable (h : p.Bound) (hg : p.arena.global? d = some g) :
    ∃ kind, p.arena.kind? d = some kind ∧ kind.isLinkable = true := by
  obtain ⟨decl, hd, -⟩ := Option.bind_eq_some_iff.1 hg
  have hk : p.arena.kind? d = some decl.kind := by rw [Arena.kind?, hd, Option.map_some]
  exact ⟨_, hk, (h d _ g hk hg).isLinkable⟩

theorem Bound.global?_eq_none (h : p.Bound) (hk : p.arena.kind? d = some kind) (hl : kind.isLinkable = false) :
    p.arena.global? d = none := by
  refine Option.eq_none_iff_forall_ne_some.2 fun g hg => ?_
  obtain ⟨kind', hk', hl'⟩ := h.isLinkable hg
  rw [hk] at hk'
  cases hk'
  rw [hl] at hl'
  cases hl'

/-- An access of a local stands for no global: the local, or the read of it, does not. -/
theorem Bound.global?_of_ownedBy {owner : DeclId} (h : p.Bound) (ho : p.arena.OwnedBy d owner) :
    p.arena.global? d = none := by
  obtain ⟨base, e, hb, hs, hlocal⟩ := ho
  refine Option.eq_none_iff_forall_ne_some.2 fun g hg => ?_
  obtain ⟨kind, hk, hbase⟩ := Option.bind_eq_some_iff.1 hb
  have hstands := h d kind g hk hg
  have hother : ∃ e', p.arena.Strips (d.index + 1) base e' ∧ (p.arena.kind? e').any DeclKind.isLinkable = true := by
    cases kind with
    | getMember base' _ | setMember base' _ _ =>
      cases hbase
      exact hstands
    | _ => cases hbase
  obtain ⟨e', hs', hl⟩ := hother
  obtain rfl : e = e' := hs.unparen.symm.trans hs'.unparen
  rcases hlocal with ⟨⟨name, role, value, refs, hke⟩, -⟩ | hke
  · rw [hke] at hl
    cases hl
  · rw [hke] at hl
    cases hl

/-- An access is linked only if its base, without parentheses, stands for a global. -/
theorem Bound.bindAccess {n : Nat} {base : DeclId} {member : Member} {value? : Option DeclId} (h : p.Bound)
    (hsize : p.arena.size = n + 1) (hk : p.arena.kind? ⟨n⟩ = some (.access base member value?)) (key? : Option Atom)
    (assigns : Bool) : (p.bindAccess ⟨n⟩ base key? assigns).Bound := by
  have hidentify : ∀ key, (p.identify ⟨n⟩ base key assigns).Bound := fun key =>
    h.grow (rebinds_identify ..).grows (by rw [globals_identify]; exact fun _ _ hc => hc) fun _ => by rw [arena_identify]
  unfold Program.bindAccess
  cases key? with
  | none => exact h
  | some key =>
    dsimp only
    split
    · next g hg =>
      refine (hidentify key).link (by rw [globals_identify]; exact Registry.sorts_ensureField) fun kind hkind => ?_
      rw [arena_identify, hk] at hkind
      obtain ⟨bkind, hbk, hl⟩ := h.isLinkable hg
      have hs : p.arena.Strips (n + 1) base (p.arena.unparen base) :=
        hsize ▸ Arena.strips_of_unparenFrom rfl hbk (by rintro x rfl; cases hl)
      have hgrow : p.Grows ((p.identify ⟨n⟩ base key assigns).link (p.globals.ensureField g key) ⟨n⟩ assigns) :=
        ((rebinds_identify ..).trans (rebinds_link ..)).grows
      have hstands : ∃ e, ((p.identify ⟨n⟩ base key assigns).link (p.globals.ensureField g key) ⟨n⟩ assigns).arena.Strips
          (n + 1) base e ∧ (((p.identify ⟨n⟩ base key assigns).link (p.globals.ensureField g key) ⟨n⟩ assigns).arena.kind?
            e).any DeclKind.isLinkable = true :=
        ⟨_, (hgrow.agree.mono (Nat.le_of_eq hsize.symm)).strips hs, hgrow.isLinkable (by rw [hbk]; exact hl)⟩
      cases hkind
      cases value? <;> exact hstands
    · exact hidentify key

end Program

theorem Edit.bound {x y : Draft} (h : Edit x y) (hg : x.program.Grounded) (hx : x.program.Bound) : y.program.Bound := by
  have hgrow := h.grows
  cases h with
  | intern | record => exact hx.grow hgrow (fun _ _ hc => hc) fun _ => rfl
  | make | start => exact hx.grow hgrow (fun _ _ hc => hc) fun _ => Arena.global?_push
  | note hf => exact hx.grow hgrow (fun _ _ hc => hc) fun _ => Arena.global?_modify fun decl => (hf decl).2.1
  | access hs hk => exact hx.bindAccess hs hk _ _
  | @read p n name hs hk =>
    refine hx.link Registry.sorts_ensure fun kind hkind => ?_
    rw [hk] at hkind
    cases hkind
    trivial
  | @assign p n name value hs hk =>
    have hfirst : (p.link (p.globals.ensure .var name) ⟨n⟩ true).Bound := by
      refine hx.link Registry.sorts_ensure fun kind hkind => ?_
      rw [hk] at hkind
      cases hkind
      trivial
    exact hfirst.linkFields (fun entry he => (Program.rebinds_link ..).grows.isField
      (Program.keyedFields_isField hg he)) _
  | @declare p n name supers fields sources hs hk =>
    refine hx.link Registry.sorts_ensure fun kind hkind => ?_
    rw [hk] at hkind
    cases hkind
    have hcategory : (p.globals.ensure .type name).2.category? (p.globals.ensure .type name).1 = some .type :=
      Registry.category?_of_get? (Registry.get?_ensure ..)
    exact Registry.sorts_addSite _ _ hcategory

theorem Program.Built.bound {p : Program} (h : p.Built) : p.Bound := by
  have hempty : Program.empty.Bound := by
    intro d kind g hk
    simp [Program.empty, Arena.kind?, Arena.decl?, Arena.empty] at hk
  have hrun : ∀ x y, Edit.Run x y → x.program.Grounded ∧ x.program.Bound → y.program.Grounded ∧ y.program.Bound := by
    intro x y hr hx
    induction hr with
    | refl => exact hx
    | tail _ h ih => exact ⟨h.grounded ih.1, h.bound ih.1 ih.2⟩
  exact (hrun _ _ h.edits ⟨Program.grounded_empty, hempty⟩).2

/-! ## What an identity group is made of -/

/-- A group that is made for an identity is empty. -/
theorem IdentityTable.groups_ensure {t : IdentityTable} {owner : DeclId} {key : Atom} {i : Nat} {g : IdentityGroup}
    (hg : (t.ensure owner key).2.groups[i]? = some g) : t.groups[i]? = some g ∨ g.sources = [] := by
  unfold ensure at hg
  split at hg
  · exact .inl hg
  · rw [Array.getElem?_push] at hg
    split at hg
    · cases hg
      exact .inr rfl
    · exact .inl hg

/-- A source of a group either was one, or is what is recorded as an assignment. -/
theorem IdentityTable.mem_sources_record {t : IdentityTable} {owner d m : DeclId} {key : Atom} {assigns : Bool} {i : Nat}
    {g : IdentityGroup} (hg : (t.record owner key d assigns).groups[i]? = some g) (hm : m ∈ g.sources) :
    (m = d ∧ assigns = true ∧ m ∈ g.members) ∨ ∃ g₀, t.groups[i]? = some g₀ ∧ m ∈ g₀.sources := by
  have hold : ∀ g₀, (t.ensure owner key).2.groups[i]? = some g₀ → m ∈ g₀.sources →
      ∃ g₀, t.groups[i]? = some g₀ ∧ m ∈ g₀.sources := by
    intro g₀ hg₀ hm₀
    refine ⟨g₀, (groups_ensure hg₀).resolve_right fun hnil => ?_, hm₀⟩
    rw [hnil] at hm₀
    cases hm₀
  rw [record, Array.getElem?_modify] at hg
  split at hg
  · obtain ⟨g₀, hg₀, rfl⟩ := Option.map_eq_some_iff.1 hg
    cases assigns with
    | false => exact .inr (hold g₀ hg₀ hm)
    | true =>
      refine (Distinct.mem_add.1 hm).symm.imp ?_ (hold g₀ hg₀)
      rintro rfl
      exact ⟨rfl, rfl, Distinct.mem_add.2 (.inr rfl)⟩
  · exact .inr (hold g hg hm)

namespace Program

variable {p p' : Program}

/-- A member of a group is a field of a table, or it names the identity. A source of it is a member that gives a value. -/
structure Recorded (p : Program) : Prop where
  named : ∀ (i : Nat) g, p.identities.groups[i]? = some g → ∀ m ∈ g.members,
    p.arena.IsField m ∨ p.arena.OwnedBy m g.owner ∧ p.arena.key? m = some g.key
  sources : ∀ (i : Nat) g, p.identities.groups[i]? = some g → ∀ m ∈ g.sources, m ∈ g.members ∧
    (p.arena.IsField m ∨ ∃ base member value, p.arena.kind? m = some (.setMember base member value))

theorem Recorded.grow (h : p.Recorded) (hg : p.Grows p') (hi : p'.identities = p.identities) : p'.Recorded where
  named i g hgroup m hm := by
    rw [hi] at hgroup
    refine (h.named i g hgroup m hm).imp hg.isField fun ⟨ho, hk⟩ => ?_
    obtain ⟨base, -, hb, -⟩ := id ho
    obtain ⟨kind, hkind, -⟩ := Option.bind_eq_some_iff.1 hb
    have hlt := Arena.index_lt_of_kind? hkind
    exact ⟨hg.agree.ownedBy hlt ho, (hg.agree.base? hlt).2.trans hk⟩
  sources i g hgroup m hm := by
    rw [hi] at hgroup
    refine (h.sources i g hgroup m hm).imp_right fun hgives => hgives.imp hg.isField ?_
    rintro ⟨base, member, value, hk⟩
    exact ⟨base, member, value, hg.agree.kind? (Arena.index_lt_of_kind? hk) rfl hk⟩

/-- A declaration may be recorded under an identity that it names, as a source if it gives a value. -/
theorem Recorded.record {owner d : DeclId} {key : Atom} {assigns : Bool} (h : p.Recorded) (ht : p.identities.Tidy)
    (hnamed : p.arena.IsField d ∨ p.arena.OwnedBy d owner ∧ p.arena.key? d = some key)
    (hgives : assigns = true →
      p.arena.IsField d ∨ ∃ base member value, p.arena.kind? d = some (.setMember base member value)) :
    Recorded { p with identities := p.identities.record owner key d assigns } := by
  obtain ⟨i, g, hr⟩ := IdentityTable.records_record ht owner key d assigns
  have hgroup : ∀ (j : Nat) g', (p.identities.record owner key d assigns).groups[j]? = some g' →
      ∀ g₀, p.identities.groups[j]? = some g₀ →
        (g'.owner = g₀.owner ∧ g'.key = g₀.key) ∧ ∀ m ∈ g₀.members, m ∈ g'.members := by
    intro j g' hg' g₀ hg₀
    by_cases hj : j = i
    · subst hj
      rw [hr.here, Option.some.injEq] at hg'
      subst hg'
      obtain ⟨ho, hk⟩ := hr.before g₀ hg₀
      exact ⟨⟨hr.named.1.trans ho.symm, hr.named.2.trans hk.symm⟩, fun m hm => (hr.members m).2 (.inr ⟨g₀, hg₀, hm⟩)⟩
    · rw [hr.elsewhere j hj, hg₀, Option.some.injEq] at hg'
      subst hg'
      exact ⟨⟨rfl, rfl⟩, fun _ hm => hm⟩
  refine ⟨fun j g' hg' m hm => ?_, fun j g' hg' m hm => ?_⟩
  · rcases hr.mem hg' hm with ⟨rfl, rfl⟩ | ⟨g₀, hg₀, hm₀⟩
    · rw [hr.here, Option.some.injEq] at hg'
      rw [← hg', hr.named.1, hr.named.2]
      exact hnamed
    · rw [(hgroup j g' hg' g₀ hg₀).1.1, (hgroup j g' hg' g₀ hg₀).1.2]
      exact h.named j g₀ hg₀ m hm₀
  · rcases IdentityTable.mem_sources_record hg' hm with ⟨rfl, hassigns, hmem⟩ | ⟨g₀, hg₀, hm₀⟩
    · exact ⟨hmem, hgives hassigns⟩
    · obtain ⟨hmem, hgives₀⟩ := h.sources j g₀ hg₀ m hm₀
      exact ⟨(hgroup j g' hg' g₀ hg₀).2 m hmem, hgives₀⟩

theorem Recorded.recordFields {fields : List (Atom × DeclId)} {n : Nat} (h : p.Recorded) (hid : p.Identified n)
    (hf : ∀ entry ∈ fields, p.arena.IsField entry.2) (owner : DeclId) :
    Recorded { p with identities := fields.foldl (fun t (key, f) => t.record owner key f true) p.identities } := by
  induction fields generalizing p with
  | nil => exact h
  | cons entry fields ih =>
    have hfield := hf entry (by simp)
    exact ih (h.record hid.tidy (.inl hfield) fun _ => .inl hfield) (hid.recordField hfield owner entry.1)
      fun x hx => hf x (by simp [hx])

theorem Recorded.bindAccess {n : Nat} {base : DeclId} {member : Member} {value? : Option DeclId} (h : p.Recorded)
    (ht : p.identities.Tidy) (hsize : p.arena.size = n + 1) (hk : p.arena.kind? ⟨n⟩ = some (.access base member value?)) :
    (p.bindAccess ⟨n⟩ base member.key? value?.isSome).Recorded := by
  unfold Program.bindAccess
  cases hkey : member.key? with
  | none => exact h
  | some key =>
    have hlast : p.arena.key? ⟨n⟩ = some key := by
      cases value? <;> simpa [Arena.key?, hk, DeclKind.access, DeclKind.key?] using hkey
    have hid : (p.identify ⟨n⟩ base key value?.isSome).Recorded := by
      unfold identify
      split
      · next owner ho =>
        refine h.record ht (.inr ⟨(Arena.ownedBy_last hsize hk).2 ho, hlast⟩) fun hgives => .inr ?_
        obtain ⟨value, rfl⟩ := Option.isSome_iff_exists.1 hgives
        exact ⟨base, member, value, hk⟩
      · exact h
    dsimp only
    split
    · exact hid.grow (rebinds_link ..).grows rfl
    · exact hid

end Program

theorem Edit.recorded {x y : Draft} (h : Edit x y) (hs : x.Sound) (hx : x.program.Recorded) : y.program.Recorded := by
  have hgrow := h.grows
  cases h with
  | intern | make | start | note | read | declare => exact hx.grow hgrow rfl
  | record owner value =>
    exact hx.recordFields hs.identified (fun entry he => Program.keyedFields_isField hs.grounded he) owner
  | access hsize hk => exact hx.bindAccess hs.identified.tidy hsize hk
  | assign => exact hx.grow hgrow (Program.identities_linkFields ..)

theorem Program.Built.recorded {p : Program} (h : p.Built) : p.Recorded := by
  have hgroup : ∀ i : Nat, Program.empty.identities.groups[i]? = none := fun i => by simp [Program.empty, IdentityTable.empty]
  have hempty : Program.empty.Recorded := by
    refine ⟨fun i g hg => ?_, fun i g hg => ?_⟩ <;> cases (hgroup i).symm.trans hg
  have hrun : ∀ x y, Edit.Run x y → x.Sound ∧ x.program.Recorded → y.Sound ∧ y.program.Recorded := by
    intro x y hr hx
    induction hr with
    | refl => exact hx
    | tail _ h ih => exact ⟨h.sound ih.1, h.recorded ih.1 ih.2⟩
  exact (hrun _ _ h.edits ⟨Draft.sound_empty, hempty⟩).2

end LuaInfer
