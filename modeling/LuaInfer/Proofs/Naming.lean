import LuaInfer.Proofs.Access
import LuaInfer.Proofs.Paths
/-!
# Declarations are bound to what they name

Two accesses on locals share an identity exactly if they name the same key of the same local. Two expressions stand for the
same global exactly if they name the same path. The sites of a global are what was registered under its path, in order.

`Program.Identified` and `Program.Linked` say this of the declarations that are bound already. Every edit keeps them
(`Edit.identified`, `Edit.linked`), and `Program.Built.names_exactly` is the result for every program that a script builds. The one
thing to exclude is an access on a field of a table constructor: such a field stands for a global as soon as the table is
given to one, and has no path of its own.
-/

namespace LuaInfer

/-- A declaration is one of the first `n`, or the next one. -/
theorem DeclId.lt_or_eq {d : DeclId} {n : Nat} (h : d.index < n + 1) : d.index < n ∨ d = ⟨n⟩ := by
  rcases Nat.lt_succ_iff_lt_or_eq.1 h with hlt | heq
  · exact .inl hlt
  · right
    cases d
    exact congrArg _ heq

/-! ## Identities -/

namespace Program

variable {p p' : Program} {n n' : Nat}

/-- What the first `n` declarations are recorded under is what they name. A member of a group is a field of a table, or it is
in no other group. -/
structure Identified (p : Program) (n : Nat) : Prop where
  tidy : p.identities.Tidy
  members : ∀ (i : Nat) g, p.identities.groups[i]? = some g → ∀ m ∈ g.members,
    p.arena.IsField m ∨ (m.index < n ∧ p.identities.home[m]? = some i)
  owned : ∀ d, d.index < n → ∀ owner key, p.arena.OwnedBy d owner → p.arena.key? d = some key →
    p.identities.Holds d owner key

theorem Grows.agree (h : p.Grows p') : p.arena.Agree p'.arena p.arena.size := by
  intro d hd
  obtain ⟨kind, hk⟩ := Arena.exists_kind? hd
  obtain ⟨kind', hk', hcore⟩ := h.core d kind hk
  rw [hk, hk', Option.map_some, Option.map_some, hcore]

theorem Grows.isField (h : p.Grows p') {d : DeclId} (hd : p.arena.IsField d) : p'.arena.IsField d :=
  Fact.Holds.grow (x := .field d) hd h

/-- A new declaration that is no access with a key leaves identities as they are. -/
theorem Identified.grow (h : p.Identified n) (hg : p.Grows p') (hi : p'.identities = p.identities)
    (hn : n ≤ p.arena.size) (hnew : n' = n ∨ n' = n + 1 ∧ (p'.arena.base? ⟨n⟩ = none ∨ p'.arena.key? ⟨n⟩ = none)) :
    p'.Identified n' := by
  have hle : n ≤ n' := by omega
  refine ⟨hi ▸ h.tidy, fun i g hgroup m hm => ?_, fun d hd owner key ho hk => ?_⟩
  · rw [hi] at hgroup ⊢
    exact (h.members i g hgroup m hm).imp hg.isField fun ⟨hlt, hhome⟩ => ⟨Nat.lt_of_lt_of_le hlt hle, hhome⟩
  · have hold : d.index < n := by
      rcases hnew with rfl | ⟨rfl, hnone⟩
      · exact hd
      · refine (DeclId.lt_or_eq hd).resolve_right fun heq => ?_
        obtain ⟨base, -, hb, -⟩ := ho
        rw [heq] at hb hk
        rcases hnone with hnone | hnone
        · rw [hnone] at hb
          cases hb
        · rw [hnone] at hk
          cases hk
    have hagree := hg.agree.mono hn
    rw [hi]
    exact h.owned d hold owner key (hagree.symm.ownedBy hold ho) ((hagree.base? hold).2 ▸ hk)

/-- Recording a field of a table moves no access. -/
theorem Identified.recordField (h : p.Identified n) {f : DeclId} (hf : p.arena.IsField f) (owner : DeclId) (key : Atom) :
    Identified { p with identities := p.identities.record owner key f true } n := by
  obtain ⟨i, g, hr⟩ := IdentityTable.records_record h.tidy owner key f true
  refine ⟨hr.tidy h.tidy, fun j g' hg' m hm => ?_, fun d hd o k ho hk => ?_⟩
  · by_cases hmf : m = f
    · exact .inl (hmf ▸ hf)
    · rcases hr.mem hg' hm with ⟨rfl, -⟩ | ⟨g₀, hg₀, hm₀⟩
      · exact absurd rfl hmf
      · rw [hr.home?, if_neg hmf]
        exact h.members j g₀ hg₀ m hm₀
  · refine hr.holds_of_ne ?_ (h.owned d hd o k ho hk)
    -- an access is no field
    rintro rfl
    obtain ⟨base, -, hb, -⟩ := ho
    exact Arena.not_field_of_base? hb hf

theorem Identified.recordFields (h : p.Identified n) {fields : List (Atom × DeclId)}
    (hf : ∀ entry ∈ fields, p.arena.IsField entry.2) (owner : DeclId) :
    Identified { p with identities := fields.foldl (fun t (key, f) => t.record owner key f true) p.identities } n := by
  induction fields generalizing p with
  | nil => exact h
  | cons entry fields ih =>
    exact ih (h.recordField (hf entry (by simp)) owner entry.1) fun x hx => hf x (by simp [hx])

/-- An access is recorded under the identity that it names. -/
theorem Identified.identify (h : p.Identified n) (hsize : p.arena.size = n + 1) {base : DeclId} {member : Member}
    {value? : Option DeclId} (hk : p.arena.kind? ⟨n⟩ = some (.access base member value?)) {key : Atom}
    (hkey : member.key? = some key) (assigns : Bool) : (p.identify ⟨n⟩ base key assigns).Identified (n + 1) := by
  have hlast : p.arena.key? ⟨n⟩ = some key := by
    cases value? <;> simpa [Arena.key?, hk, DeclKind.access, DeclKind.key?] using hkey
  unfold Program.identify
  cases ho : p.arena.owner? base with
  | none =>
    refine ⟨h.tidy, fun i g hg m hm => ?_, fun d hd owner k hown hkd => ?_⟩
    · exact (h.members i g hg m hm).imp_right fun hm' => ⟨Nat.lt_succ_of_lt hm'.1, hm'.2⟩
    · rcases DeclId.lt_or_eq hd with hlt | rfl
      · exact h.owned d hlt owner k hown hkd
      · rw [Arena.ownedBy_last hsize hk, ho] at hown
        cases hown
  | some owner =>
    dsimp only
    obtain ⟨i, g, hr⟩ := IdentityTable.records_record h.tidy owner key ⟨n⟩ assigns
    have hne : ∀ d : DeclId, d.index < n → d ≠ ⟨n⟩ := by
      rintro d hd rfl
      exact Nat.lt_irrefl _ hd
    refine ⟨hr.tidy h.tidy, fun j g' hg' m hm => ?_, fun d hd o k hown hkd => ?_⟩
    · rcases hr.mem hg' hm with ⟨rfl, rfl⟩ | ⟨g₀, hg₀, hm₀⟩
      · exact .inr ⟨Nat.lt_succ_self n, by rw [hr.home?, if_pos rfl]⟩
      · refine (h.members j g₀ hg₀ m hm₀).imp_right fun hm' => ⟨Nat.lt_succ_of_lt hm'.1, ?_⟩
        rw [hr.home?, if_neg (hne m hm'.1), hm'.2]
    · rcases DeclId.lt_or_eq hd with hlt | rfl
      · exact hr.holds_of_ne (hne d hlt) (h.owned d hlt o k hown hkd)
      · rw [Arena.ownedBy_last hsize hk, ho] at hown
        rw [hlast] at hkd
        cases hown
        cases hkd
        exact hr.holds

theorem identities_linkFields (g : GlobalId) (fields : List (Atom × DeclId)) :
    (p.linkFields g fields).identities = p.identities := by
  induction fields generalizing p with
  | nil => rfl
  | cons entry fields ih => exact ih

theorem keyedFields_isField (h : p.Grounded) {value : DeclId} {entry : Atom × DeclId}
    (he : entry ∈ p.arena.keyedFields value) : p.arena.IsField entry.2 := by
  unfold Arena.keyedFields at he
  split at he
  · next fields hk =>
    obtain ⟨f, hf, hkey⟩ := List.mem_filterMap.1 he
    obtain ⟨_, -, rfl⟩ := Option.map_eq_some_iff.1 hkey
    exact h.fields value _ hk f hf
  · cases he

end Program

theorem Edit.bound_le {x y : Draft} (h : Edit x y) (hx : x.bound ≤ x.program.arena.size) :
    y.bound ≤ y.program.arena.size := by
  have hg := h.grows.size
  cases h with
  | intern | start | note | record => exact Nat.le_trans hx hg
  | make => exact Nat.le_of_eq Arena.size_push.symm
  | access hs | read hs | assign hs | declare hs => exact Nat.le_trans (Nat.le_of_eq hs.symm) hg

/-- The only declaration that an edit binds is the last one. -/
theorem Edit.identified {x y : Draft} (h : Edit x y) (hg : x.program.Grounded) (hle : x.bound ≤ x.program.arena.size)
    (hx : x.program.Identified x.bound) : y.program.Identified y.bound := by
  have hgrow := h.grows
  cases h with
  | intern | start | note => exact hx.grow hgrow rfl hle (.inl rfl)
  | @make p kind hb ha =>
    refine hx.grow hgrow rfl hle (.inr ⟨rfl, .inl ?_⟩)
    rw [Arena.base?, Arena.kind?_push, if_pos rfl, Option.bind_some]
    cases kind <;> first | rfl | cases hb
  | record owner value => exact hx.recordFields (fun entry he => Program.keyedFields_isField hg he) owner
  | @access p n base member value? hs hk =>
    unfold Program.bindAccess
    cases hkey : member.key? with
    | none =>
      refine hx.grow (.refl p) rfl hle (.inr ⟨rfl, .inr ?_⟩)
      cases value? <;> simpa [Arena.key?, hk, DeclKind.access, DeclKind.key?] using hkey
    | some key =>
      have hid := hx.identify hs hk hkey value?.isSome
      dsimp only
      split
      · exact hid.grow (Program.rebinds_link ..).grows rfl (by simp [hs]) (.inl rfl)
      · exact hid
  | @read p n name hs hk =>
    refine hx.grow hgrow rfl hle (.inr ⟨rfl, .inl ?_⟩)
    rw [Arena.base?, (Program.rebinds_link ..).kind?, hk]
    rfl
  | @assign p n name value hs hk =>
    refine hx.grow hgrow (Program.identities_linkFields ..) hle (.inr ⟨rfl, .inl ?_⟩)
    rw [Arena.base?, ((Program.rebinds_link ..).trans (Program.rebinds_linkFields ..)).kind?, hk]
    rfl
  | @declare p n name supers fields sources hs hk =>
    refine hx.grow hgrow rfl hle (.inr ⟨rfl, .inl ?_⟩)
    rw [Arena.base?, (Program.rebinds_link ..).kind?, hk]
    rfl

/-! ## Globals -/

namespace Arena

/-- No member is accessed on a field of a table constructor that existed at the time. -/
def Clear (a : Arena) : Prop := ∀ d base e, a.base? d = some base → a.Strips d.index base e → ¬ a.IsField e

theorem global?_modify {a : Arena} {d e : DeclId} {f : Decl → Decl} (h : ∀ decl, (f decl).global = decl.global) :
    (a.modify d f).global? e = a.global? e := by
  unfold global?
  rw [decl?_modify]
  split
  · cases a.decl? e with
    | none => rfl
    | some decl => exact h decl
  · rfl

theorem global?_push {a : Arena} {e : DeclId} {kind : DeclKind} : (a.push kind).2.global? e = a.global? e := by
  unfold global?
  rw [decl?_push]
  split
  · next he => rw [he]; simp [decl?, push]
  · rfl

end Arena

namespace Program

variable {p p' : Program} {n n' : Nat} {listed listed' : List Atom → List DeclId}

/-- The first `n` declarations, fields of tables aside, stand for the global that their path leads to, and for none at the
end of a path if they have no path. The sites of the globals are those that are listed. -/
structure Linked (p : Program) (n : Nat) (listed : List Atom → List DeclId) : Prop where
  sound : ∀ d g, p.arena.global? d = some g →
    d.index < n ∧ g.index < p.globals.size ∧ ∀ x, p.arena.kind? d ≠ some (.paren x)
  paths : ∀ d, d.index < n → ¬ p.arena.IsField d → ∀ path,
    p.arena.Path d path ↔ ∃ g, p.arena.global? d = some g ∧ p.globals.at? path = some g
  lists : p.globals.Lists listed

theorem Grows.clear (h : p.Grows p') (hc : p'.arena.Clear) : p.arena.Clear := by
  intro d base e hb hs hf
  obtain ⟨kind, hk, -⟩ := Option.bind_eq_some_iff.1 hb
  have hd := Arena.index_lt_of_kind? hk
  exact hc d base e ((h.agree.base? hd).1.trans hb) ((h.agree.mono (Nat.le_of_lt hd)).strips hs) (h.isField hf)

/-- Growth without any new link. -/
theorem Linked.grow (h : p.Linked n listed) (hg : p.Grows p') (hn : n ≤ p.arena.size)
    (hglobal : ∀ d, p'.arena.global? d = p.arena.global? d) (hr : p'.globals = p.globals)
    (hnew : n' = n ∨ n' = n + 1 ∧ ∀ path, ¬ p'.arena.Path ⟨n⟩ path) (hlisted : listed' = listed) :
    p'.Linked n' listed' := by
  have hle : n ≤ n' := by omega
  have hagree := hg.agree.mono hn
  refine ⟨fun d g hd => ?_, fun d hd hf path => ?_, by rw [hr, hlisted]; exact h.lists⟩
  · rw [hglobal] at hd
    obtain ⟨hlt, hgs, hparen⟩ := h.sound d g hd
    refine ⟨Nat.lt_of_lt_of_le hlt hle, by rwa [hr], fun x hx => hparen x ?_⟩
    exact hagree.symm.kind? hlt rfl hx
  · rw [hglobal, hr]
    by_cases hold : d.index < n
    · rw [hagree.path_iff hold]
      exact h.paths d hold (fun hfd => hf (hg.isField hfd)) path
    · rcases hnew with rfl | ⟨rfl, hnone⟩
      · exact absurd hd hold
      · obtain rfl := (DeclId.lt_or_eq hd).resolve_left hold
        refine ⟨fun hp => absurd hp (hnone path), ?_⟩
        rintro ⟨g, hgd, -⟩
        exact absurd (h.sound _ g hgd).1 hold

theorem size_globals_link (target : GlobalId × Registry) (d : DeclId) (assigns : Bool) :
    (p.link target d assigns).globals.size = target.2.size := by
  cases assigns with
  | false => rfl
  | true => exact Registry.size_addSite

/-- Linking a declaration. It is a field of a table, or the last declaration, whose path leads to the global. -/
theorem Linked.link (h : p.Linked n listed) {target : GlobalId × Registry} {d : DeclId} {assigns : Bool}
    (hx : p.globals.Extends target.2) (hl : target.2.Lists listed) (hg : target.1.index < target.2.size)
    (hd : d.index < p.arena.size) (hparen : ∀ x, p.arena.kind? d ≠ some (.paren x))
    (hnew : n' = n ∧ d.index < n ∧ p.arena.IsField d ∨
      n' = n + 1 ∧ d = ⟨n⟩ ∧ ∀ path, p.arena.Path d path ↔ target.2.at? path = some target.1)
    (hlisted : ∀ path, listed' path = listed path ++ if assigns ∧ target.2.at? path = some target.1 then [d] else []) :
    (p.link target d assigns).Linked n' listed' := by
  have hr : p.Rebinds (p.link target d assigns) := rebinds_link ..
  have hagree : p.arena.Agree (p.link target d assigns).arena (max p.arena.size n') := fun e _ => by rw [hr.kind?]
  have hglobal : ∀ e, (p.link target d assigns).arena.global? e = if e = d then some target.1 else p.arena.global? e := by
    intro e
    obtain ⟨decl, hdecl⟩ : ∃ decl, p.arena.decl? d = some decl := ⟨_, Array.getElem?_eq_getElem hd⟩
    unfold Program.link Arena.global?
    rw [Arena.decl?_modify]
    split
    · next he => rw [he, hdecl]; rfl
    · rfl
  have hat : ∀ path, (p.link target d assigns).globals.at? path = target.2.at? path := by
    intro path
    unfold Program.link
    split
    · exact Registry.at?_addSite
    · rfl
  have hsize := p.size_globals_link target d assigns
  have hlt : d.index < n' := by
    rcases hnew with ⟨rfl, hlt, -⟩ | ⟨rfl, rfl, -⟩
    · exact hlt
    · exact Nat.lt_succ_self n
  refine ⟨fun e g he => ?_, fun e he hf path => ?_, ?_⟩
  · rw [hsize, hr.kind?]
    rw [hglobal] at he
    split at he
    · next hed =>
      cases he
      exact ⟨hed ▸ hlt, hg, hed ▸ hparen⟩
    · obtain ⟨hen, hgs, hp⟩ := h.sound e g he
      exact ⟨by omega, Nat.lt_of_lt_of_le hgs hx.size, hp⟩
  · have hpath : (p.link target d assigns).arena.Path e path ↔ p.arena.Path e path :=
      hagree.path_iff (Nat.lt_of_lt_of_le he (Nat.le_max_right _ _))
    have hfield : ¬ p.arena.IsField e := by
      rintro ⟨key, value, hk⟩
      exact hf ⟨key, value, by rw [hr.kind?, hk]⟩
    rw [hpath]
    simp only [hat, hglobal]
    by_cases hed : e = d
    · subst hed
      simp only [if_true, Option.some.injEq, exists_eq_left']
      rcases hnew with ⟨-, -, hfd⟩ | ⟨-, -, hpaths⟩
      · exact absurd hfd hfield
      · exact hpaths path
    · simp only [if_neg hed]
      have hen : e.index < n := by
        rcases hnew with ⟨rfl, -, -⟩ | ⟨rfl, rfl, -⟩
        · exact he
        · exact (DeclId.lt_or_eq he).resolve_right hed
      -- an old global is at the end of the same paths
      rw [h.paths e hen hfield path]
      refine exists_congr fun g => and_congr_right fun hge => ?_
      exact (hx.at?_iff (h.sound e g hge).2.1).symm
  · unfold Program.link
    cases assigns with
    | false =>
      have : listed' = listed := funext fun path => by simpa using hlisted path
      rw [this]
      exact hl
    | true =>
      refine hl.addSite hg (fun path hp => ?_) fun path hp => ?_
      · rw [hlisted, if_pos ⟨rfl, hp⟩]
      · rw [hlisted, if_neg fun hc => hp hc.2, List.append_nil]

/-- Fields of a table become members of a global variable, each listed under its key. -/
theorem Linked.linkFields (h : p.Linked n listed) {name : Atom} {g : GlobalId} (hg : p.globals.get? .var name = some g)
    {fields : List (Atom × DeclId)} (hf : ∀ entry ∈ fields, p.arena.IsField entry.2 ∧ entry.2.index < n) :
    (p.linkFields g fields).Linked n fun path =>
      listed path ++ (fields.filter fun (key, _) => path = [name, key]).map Prod.snd := by
  induction fields generalizing p listed with
  | nil => simpa [Program.linkFields] using h
  | cons entry fields ih =>
    have hgs : g.index < p.globals.size := Registry.index_lt_of_label? (Registry.label?_of_get? hg)
    have hx : p.globals.Extends (p.globals.ensureField g entry.1).2 := Registry.extends_ensureField hgs
    have hl : (p.globals.ensureField g entry.1).2.Lists listed := h.lists.ensureField hgs entry.1
    have hsub : (p.globals.ensureField g entry.1).2.getField? g entry.1 = some (p.globals.ensureField g entry.1).1 := by
      rw [Registry.getField?_ensureField hgs, if_pos ⟨rfl, rfl⟩]
    have hroot : (p.globals.ensureField g entry.1).2.get? .var name = some g := by rw [Registry.get?_ensureField, hg]
    have hat : ∀ path, (p.globals.ensureField g entry.1).2.at? path = some (p.globals.ensureField g entry.1).1 ↔
        path = [name, entry.1] := by
      intro path
      rw [hl.labelled.at?_member hsub]
      constructor
      · rintro ⟨rest, rfl, hrest⟩
        rw [((Registry.at?_root hroot hl.labelled).1 hrest).2]
        rfl
      · rintro rfl
        exact ⟨[name], rfl, (Registry.at?_root hroot hl.labelled).2 ⟨rfl, rfl⟩⟩
    obtain ⟨hfield, hlt⟩ := hf entry (by simp)
    obtain ⟨key, value, hk⟩ := id hfield
    have hfirst : (p.link (p.globals.ensureField g entry.1) entry.2 true).Linked n fun path =>
        listed path ++ if path = [name, entry.1] then [entry.2] else [] := by
      refine h.link hx hl (Registry.index_lt_of_label? (hl.labelled _ _ _ hsub)) (Arena.index_lt_of_kind? hk)
        (by simp [hk]) (.inl ⟨rfl, hlt, hfield⟩) fun path => ?_
      simp [hat]
    have hroot' : (p.link (p.globals.ensureField g entry.1) entry.2 true).globals.get? .var name = some g :=
      Registry.get?_addSite.trans hroot
    have hrest := ih hfirst hroot' fun x hx => by
      obtain ⟨⟨key, value, hk⟩, hlt⟩ := hf x (by simp [hx])
      exact ⟨⟨key, value, by rw [(rebinds_link ..).kind?, hk]⟩, hlt⟩
    have hlisted : (fun path => listed path ++ ((entry :: fields).filter fun (key, _) => path = [name, key]).map Prod.snd) =
        fun path => (listed path ++ if path = [name, entry.1] then [entry.2] else []) ++
          (fields.filter fun (key, _) => path = [name, key]).map Prod.snd := by
      funext path
      rw [List.append_assoc]
      by_cases hp : path = [name, entry.1]
      · simp [hp]
      · simp [hp]
    rw [hlisted]
    exact hrest

/-- An access that was made last is bound to the member that its path leads to. -/
theorem Linked.bindAccess {base : DeclId} {member : Member} {value? : Option DeclId} (hs : p.arena.size = n + 1)
    (hk : p.arena.kind? ⟨n⟩ = some (.access base member value?)) (hclear : p.arena.Clear)
    (h : p.Linked n (p.arena.registered n)) :
    (p.bindAccess ⟨n⟩ base member.key? value?.isSome).Linked (n + 1) (p.arena.registered (n + 1)) := by
  have hb : p.arena.base? ⟨n⟩ = some base := by cases value? <;> simp [Arena.base?, hk, DeclKind.access, DeclKind.base?]
  have hlast : ∀ x, p.arena.kind? ⟨n⟩ ≠ some (.paren x) := by rw [hk]; cases value? <;> simp [DeclKind.access]
  have hreg : ∀ path, p.arena.registered (n + 1) path =
      p.arena.registered n path ++ open Classical in if value?.isSome ∧ p.arena.Path ⟨n⟩ path then [⟨n⟩] else [] := by
    intro path
    rw [Arena.registered_succ, Arena.registers, hk]
    cases value? with
    | none => simp [DeclKind.access]
    | some value => classical exact congrArg _ (if_congr (by simp) rfl rfl)
  have hunbound (hnone : ∀ path, ¬ p.arena.Path ⟨n⟩ path) : p.arena.registered (n + 1) = p.arena.registered n := by
    funext path
    simp [hreg, hnone]
  unfold Program.bindAccess
  cases hkey : member.key? with
  | none =>
    have hnone : ∀ path, ¬ p.arena.Path ⟨n⟩ path := by
      intro path hp
      obtain ⟨key, -, -, hkey', -⟩ := (Arena.path_access hk).1 hp
      rw [hkey] at hkey'
      cases hkey'
    exact h.grow (.refl p) (by omega) (fun _ => rfl) rfl (.inr ⟨rfl, hnone⟩) (hunbound hnone)
  | some key =>
    have hq : (p.identify ⟨n⟩ base key value?.isSome).Linked n (p.arena.registered n) :=
      h.grow (rebinds_identify ..).grows (by omega) (fun _ => by rw [arena_identify]) (globals_identify ..) (.inl rfl) rfl
    -- what the base stands for is what it is without parentheses
    have hbase : ∀ e rest, p.arena.Strips n base e → p.arena.Path e rest →
        ∃ g, p.arena.globalOf? base = some g ∧ p.globals.at? rest = some g := by
      intro e rest hstrips hp
      obtain ⟨g, hge, hat⟩ := (h.paths e hstrips.index_lt (hclear _ _ _ hb hstrips) rest).1 hp
      exact ⟨g, by rw [Arena.globalOf?, hstrips.unparen, hge], hat⟩
    dsimp only
    cases hg : p.arena.globalOf? base with
    | none =>
      have hnone : ∀ path, ¬ p.arena.Path ⟨n⟩ path := by
        intro path hp
        obtain ⟨_, e, rest, -, hstrips, hrest, -⟩ := (Arena.path_access hk).1 hp
        obtain ⟨g, hg', -⟩ := hbase e rest hstrips hrest
        rw [hg] at hg'
        cases hg'
      refine hq.grow (.refl _) (by simp [hs]) (fun _ => rfl) rfl (.inr ⟨rfl, ?_⟩) (hunbound hnone)
      rw [arena_identify]
      exact hnone
    | some g =>
      have hge : p.arena.global? (p.arena.unparen base) = some g := hg
      obtain ⟨hlt, hgs, hparen⟩ := h.sound _ g hge
      obtain ⟨kind, hkind⟩ := Arena.exists_kind? (show (p.arena.unparen base).index < p.arena.size by omega)
      have hstrips : p.arena.Strips n base (p.arena.unparen base) := by
        have hstrips : p.arena.Strips p.arena.size base (p.arena.unparen base) :=
          Arena.strips_of_unparenFrom rfl hkind fun x hx => hparen x (hx ▸ hkind)
        rw [hs] at hstrips
        refine hstrips.pred hlast fun he => ?_
        rw [he] at hlt
        exact Nat.lt_irrefl _ hlt
      have hx : p.globals.Extends (p.globals.ensureField g key).2 := Registry.extends_ensureField hgs
      have hl := h.lists.ensureField hgs key
      have hsub : (p.globals.ensureField g key).2.getField? g key = some (p.globals.ensureField g key).1 := by
        rw [Registry.getField?_ensureField hgs, if_pos ⟨rfl, rfl⟩]
      have hpath : ∀ path, p.arena.Path ⟨n⟩ path ↔
          (p.globals.ensureField g key).2.at? path = some (p.globals.ensureField g key).1 := by
        intro path
        rw [Arena.path_access hk, hl.labelled.at?_member hsub]
        constructor
        · rintro ⟨key', e, rest, hkey', he, hrest, rfl⟩
          rw [hkey] at hkey'
          cases hkey'
          obtain ⟨g', hg', hat⟩ := hbase e rest he hrest
          rw [hg] at hg'
          cases hg'
          exact ⟨rest, rfl, (hx.at?_iff hgs).2 hat⟩
        · rintro ⟨rest, rfl, hat⟩
          refine ⟨key, _, rest, hkey, hstrips, ?_, rfl⟩
          rw [h.paths _ hlt (hclear _ _ _ hb hstrips)]
          exact ⟨g, hge, (hx.at?_iff hgs).1 hat⟩
      refine hq.link (by rw [globals_identify]; exact hx) hl (Registry.index_lt_of_label? (hl.labelled _ _ _ hsub))
        (by simp [hs]) (by simpa using hlast) (.inr ⟨rfl, rfl, ?_⟩) fun path => ?_
      · rw [arena_identify]
        exact hpath
      · rw [hreg]
        congr 1
        classical exact if_congr (and_congr_right fun _ => hpath path) rfl rfl

/-- An assignment to a global that was made last is bound, with the fields of a table that is assigned. -/
theorem Linked.bindAssign {name : Atom} {value : DeclId} (hs : p.arena.size = n + 1)
    (hk : p.arena.kind? ⟨n⟩ = some (.setGlobal name value)) (hg : p.Grounded) (h : p.Linked n (p.arena.registered n)) :
    ((p.link (p.globals.ensure .var name) ⟨n⟩ true).linkFields (p.globals.ensure .var name).1
      (p.arena.keyedFields value)).Linked (n + 1) (p.arena.registered (n + 1)) := by
  have hl := h.lists.ensure .var name
  have hroot := Registry.get?_ensure p.globals .var name
  have hfirst : (p.link (p.globals.ensure .var name) ⟨n⟩ true).Linked (n + 1) fun path =>
      p.arena.registered n path ++ if path = [name] then [⟨n⟩] else [] := by
    refine h.link (Registry.extends_ensure ..) hl (Registry.index_lt_of_label? (Registry.label?_of_get? hroot))
      (by simp [hs]) (by simp [hk]) (.inr ⟨rfl, rfl, fun path => ?_⟩) fun path => ?_
    · rw [Arena.path_setGlobal hk, Registry.at?_root hroot hl.labelled]
      simp
    · simp [Registry.at?_root hroot hl.labelled]
  have hrest := hfirst.linkFields (Registry.get?_addSite.trans hroot) fun (entry : Atom × DeclId) (he : entry ∈ p.arena.keyedFields value) => by
    obtain ⟨key, content, hke⟩ := keyedFields_isField hg he
    refine ⟨⟨key, content, by rw [(rebinds_link ..).kind?, hke]⟩, ?_⟩
    have := Arena.index_lt_of_kind? hke
    omega
  have hlisted : p.arena.registered (n + 1) = fun path => (p.arena.registered n path ++ if path = [name] then [⟨n⟩] else []) ++
      ((p.arena.keyedFields value).filter fun (key, _) => path = [name, key]).map Prod.snd := by
    funext path
    rw [Arena.registered_succ, Arena.registers, hk, List.append_assoc]
    dsimp only
    by_cases hv : value.index < n
    · rw [if_pos hv]
    · have hnone : p.arena.keyedFields value = [] := by
        unfold Arena.keyedFields
        split
        · next fields hkv =>
          have := Arena.index_lt_of_kind? hkv
          obtain rfl := (DeclId.lt_or_eq (by omega)).resolve_left hv
          rw [hk] at hkv
          cases hkv
        · rfl
      rw [if_neg hv, hnone]
      rfl
  rw [hlisted]
  exact hrest

end Program

theorem Edit.linked {x y : Draft} (h : Edit x y) (hg : x.program.Grounded) (hle : x.bound ≤ x.program.arena.size)
    (hclear : y.program.arena.Clear) (hx : x.program.Linked x.bound (x.program.arena.registered x.bound)) :
    y.program.Linked y.bound (y.program.arena.registered y.bound) := by
  have hgrow := h.grows
  have hfields : ∀ value fields, x.program.arena.kind? value = some (.table fields) → ∀ f ∈ fields,
      f.index < x.program.arena.size := by
    intro value fields hk f hf
    obtain ⟨key, v, hk'⟩ := hg.fields value _ hk f hf
    exact Arena.index_lt_of_kind? hk'
  have hreg : y.program.arena.registered x.bound = x.program.arena.registered x.bound := hgrow.agree.registered hfields hle
  cases h with
  | intern | record => exact hx.grow hgrow hle (fun _ => rfl) rfl (.inl rfl) hreg
  | note hf => exact hx.grow hgrow hle (fun _ => Arena.global?_modify fun decl => (hf decl).2.1) rfl (.inl rfl) hreg
  | start => exact hx.grow hgrow hle (fun _ => Arena.global?_push) rfl (.inl rfl) hreg
  | @make p kind hb ha =>
    have hk : (p.arena.push kind).2.kind? ⟨p.arena.size⟩ = some kind := by rw [Arena.kind?_push, if_pos rfl]
    have hnone : ∀ path, ¬ (p.arena.push kind).2.Path ⟨p.arena.size⟩ path := fun path =>
      Arena.not_path hk (by cases kind <;> first | rfl | cases hb) (by rintro _ rfl; cases hb) (by rintro _ _ rfl; cases hb)
    refine hx.grow hgrow hle (fun _ => Arena.global?_push) rfl (.inr ⟨rfl, hnone⟩) (funext fun path => ?_)
    rw [Arena.registered_succ, hreg, Arena.registers, hk]
    cases kind <;> first | exact List.append_nil _ | cases hb
  | @read p n name hs hk =>
    have hl := hx.lists.ensure .var name
    have hroot := Registry.get?_ensure p.globals .var name
    have hk' : (p.link (p.globals.ensure .var name) ⟨n⟩ false).arena.kind? ⟨n⟩ = some (.getGlobal name) := by
      rw [(Program.rebinds_link ..).kind?, hk]
    refine hx.link (Registry.extends_ensure ..) hl (Registry.index_lt_of_label? (Registry.label?_of_get? hroot))
      (by simp [hs]) (by simp [hk]) (.inr ⟨rfl, rfl, fun path => ?_⟩) fun path => ?_
    · rw [Arena.path_getGlobal hk, Registry.at?_root hroot hl.labelled]
      simp
    · rw [Arena.registered_succ, hreg, Arena.registers, hk']
      simp
  | @assign p n name value hs hk =>
    rw [hgrow.agree.registered hfields (Nat.le_of_eq hs.symm)]
    exact hx.bindAssign hs hk hg
  | @declare p n name supers fields sources hs hk =>
    have hl := hx.lists.ensure .type name
    have hroot := Registry.get?_ensure p.globals .type name
    have hk' : (p.link (p.globals.ensure .type name) ⟨n⟩ true).arena.kind? ⟨n⟩ =
        some (.docClass name supers fields sources) := by
      rw [(Program.rebinds_link ..).kind?, hk]
    -- no path leads to a type
    have hoff : ∀ path, (p.globals.ensure .type name).2.at? path ≠ some (p.globals.ensure .type name).1 := by
      intro path hp
      cases ((Registry.at?_root hroot hl.labelled).1 hp).1
    refine hx.link (Registry.extends_ensure ..) hl (Registry.index_lt_of_label? (Registry.label?_of_get? hroot))
      (by simp [hs]) (by simp [hk]) (.inr ⟨rfl, rfl, fun path => ?_⟩) fun path => ?_
    · exact ⟨fun hp => absurd hp (Arena.not_path hk rfl (by simp) (by simp)), fun hp => absurd hp (hoff path)⟩
    · rw [Arena.registered_succ, hreg, Arena.registers, hk']
      simp [hoff path]
  | @access p n base member value? hs hk =>
    rw [hgrow.agree.registered hfields (Nat.le_of_eq hs.symm)]
    exact hx.bindAccess hs hk (hgrow.clear hclear)

/-! ## Every program -/

/-- What every draft has on the way from nothing to a program. -/
structure Draft.Sound (x : Draft) : Prop where
  grounded : x.program.Grounded
  bound_le : x.bound ≤ x.program.arena.size
  identified : x.program.Identified x.bound
  linked : x.program.arena.Clear → x.program.Linked x.bound (x.program.arena.registered x.bound)

theorem Edit.sound {x y : Draft} (h : Edit x y) (hx : x.Sound) : y.Sound where
  grounded := h.grounded hx.grounded
  bound_le := h.bound_le hx.bound_le
  identified := h.identified hx.grounded hx.bound_le hx.identified
  linked hclear := h.linked hx.grounded hx.bound_le hclear (hx.linked (h.grows.clear hclear))

theorem Draft.sound_empty : (Draft.of .empty).Sound := by
  have hglobal : ∀ d, Program.empty.arena.global? d = none := fun d => by
    simp [Program.empty, Arena.global?, Arena.decl?, Arena.empty]
  have hgroup : ∀ i : Nat, Program.empty.identities.groups[i]? = none := fun i => by simp [Program.empty, IdentityTable.empty]
  refine ⟨Program.grounded_empty, Nat.le_refl _, ⟨⟨fun d i hi => ?_, fun i j g g' hg => ?_⟩, fun i g hg => ?_, fun d hd => ?_⟩,
    fun _ => ⟨fun d g hg => ?_, fun d hd => ?_, .empty⟩⟩
  · simp [Draft.of, Program.empty, IdentityTable.empty] at hi
  · cases (hgroup i).symm.trans hg
  · cases (hgroup i).symm.trans hg
  · cases hd
  · cases (hglobal d).symm.trans hg
  · cases hd

theorem Program.Built.sound {p : Program} (h : p.Built) : (Draft.of p).Sound := by
  have hrun : ∀ x y, Edit.Run x y → x.Sound → y.Sound := by
    intro x y hr hx
    induction hr with
    | refl => exact hx
    | tail _ h ih => exact h.sound ih
  exact hrun _ _ h.edits Draft.sound_empty

/-! ## Texts -/

theorem Interner.text_inj {t : Interner} (hn : t.texts.toList.Nodup) {a b : Atom} (ha : a.index < t.size)
    (hb : b.index < t.size) : t.text a = t.text b ↔ a = b := by
  refine ⟨fun h => ?_, congrArg _⟩
  have hget : ∀ c : Atom, c.index < t.size → t.texts.toList[c.index]? = some (t.text c) := by
    intro c hc
    rw [Array.getElem?_toList, Interner.text, Array.getD_eq_getD_getElem?, Array.getElem?_eq_getElem hc]
    rfl
  have hi := (List.getElem?_inj (by simpa [Interner.size] using ha) hn).1 ((hget a ha).trans (h ▸ (hget b hb).symm))
  cases a
  cases b
  exact congrArg _ hi

theorem DeclKind.naming?_of_base? {kind : DeclKind} {base : DeclId} (h : kind.base? = some base) :
    kind.naming? = kind.key? := by
  cases kind <;> first | rfl | cases h

/-- The key of an access is stored. -/
theorem Program.Grounded.stored_key {p : Program} (hg : p.Grounded) {d base : DeclId} {key : Atom}
    (hb : p.arena.base? d = some base) (hk : p.arena.key? d = some key) : key.index < p.interner.size := by
  obtain ⟨kind, hkind, hbase⟩ := Option.bind_eq_some_iff.1 hb
  rw [Arena.key?, hkind, Option.bind_some, ← DeclKind.naming?_of_base? hbase] at hk
  exact hg.stored d kind hkind key hk

theorem Arena.Path.stored {p : Program} (hg : p.Grounded) {d : DeclId} {path : List Atom} (h : p.arena.Path d path) :
    ∀ a ∈ path, a.index < p.interner.size := by
  induction h with
  | read hk => simpa using hg.stored _ _ hk _ rfl
  | assign hk => simpa using hg.stored _ _ hk _ rfl
  | member hb hkey _ _ ih =>
    intro a ha
    rcases List.mem_append.1 ha with ha | ha
    · exact ih a ha
    · cases List.mem_singleton.1 ha
      exact hg.stored_key hb hkey

theorem Interner.map_text_inj {t : Interner} (hn : t.texts.toList.Nodup) {path path' : List Atom}
    (hp : ∀ a ∈ path, a.index < t.size) (hp' : ∀ a ∈ path', a.index < t.size) :
    path.map t.text = path'.map t.text ↔ path = path' := by
  refine ⟨fun h => ?_, congrArg _⟩
  induction path generalizing path' with
  | nil => exact (List.map_eq_nil_iff.1 h.symm).symm
  | cons a path ih =>
    cases path' with
    | nil => cases h
    | cons b path' =>
      rw [List.map_cons, List.map_cons, List.cons.injEq, Interner.text_inj hn (hp a (by simp)) (hp' b (by simp))] at h
      rw [h.1, ih (fun c hc => hp c (by simp [hc])) (fun c hc => hp' c (by simp [hc])) h.2]

namespace Program

variable {p : Program}

theorem clear_of_offFields (h : p.arena.OffFields) : p.arena.Clear := by
  rintro d base e hb hs ⟨key, value, hk⟩
  obtain ⟨kind, hkind, hbase⟩ := Option.bind_eq_some_iff.1 hb
  obtain ⟨decl, hdecl, rfl⟩ := Option.map_eq_some_iff.1 hkind
  have hoff := h decl (Array.mem_of_getElem? hdecl) base hbase
  rw [hs.unparen, hk] at hoff
  cases hoff

/-- Groups tell identities apart: a declaration that is no field of a table is in no group but its own. -/
theorem Identified.group_eq_iff {n : Nat} (h : p.Identified n) {d e owner owner' : DeclId} {key key' : Atom}
    (hd : p.identities.Holds d owner key) (he : p.identities.Holds e owner' key') (hf : ¬ p.arena.IsField d) :
    d ∈ p.identities.group d ∧ (p.identities.group d = p.identities.group e ↔ owner = owner' ∧ key = key') := by
  obtain ⟨i, g, hi, hg, rfl, rfl⟩ := hd
  obtain ⟨j, g', hj, hg', rfl, rfl⟩ := he
  have hgroup : p.identities.group d = g.members := by simp only [IdentityTable.group, hi, hg]
  have hgroup' : p.identities.group e = g'.members := by simp only [IdentityTable.group, hj, hg']
  have hmem : d ∈ g.members := by
    obtain ⟨g₀, hg₀, hmem⟩ := h.tidy.home d i hi
    rw [hg] at hg₀
    cases hg₀
    exact hmem
  rw [hgroup, hgroup']
  refine ⟨hmem, fun heq => ?_, fun ⟨ho, hk⟩ => ?_⟩
  · obtain ⟨-, hhome⟩ := (h.members j g' hg' d (heq ▸ hmem)).resolve_left hf
    rw [hi] at hhome
    cases hhome
    rw [hg] at hg'
    cases hg'
    exact ⟨rfl, rfl⟩
  · obtain rfl := h.tidy.unique i j g g' hg hg' ho hk
    rw [hg] at hg'
    cases hg'
    rfl

/-- In a program that a script builds, without accesses on fields of table constructors: an access on a local is in the group
of its identity, and two of them share it exactly if they have the same local and the text of the same key. An expression
with a path stands for the global at the end of it, and so does exactly what has a path of the same texts. The sites of a
global at the end of a path are what was registered under the path, in the order of registration and without repetitions. -/
theorem Built.names_exactly (hp : p.Built) (hoff : p.arena.OffFields) :
    (∀ d e owner owner' key key', p.arena.OwnedBy d owner → p.arena.key? d = some key →
      p.arena.OwnedBy e owner' → p.arena.key? e = some key' → d ∈ p.identities.group d ∧
      (p.identities.group d = p.identities.group e ↔ owner = owner' ∧ p.interner.text key = p.interner.text key')) ∧
    (∀ d e path path', p.arena.Path d path → p.arena.Path e path' → ∃ g, p.globals.at? path = some g ∧
      p.arena.global? d = some g ∧
      (p.arena.global? e = some g ↔ path'.map p.interner.text = path.map p.interner.text)) ∧
    ∀ path g, p.globals.at? path = some g → (p.globals.sites g).Nodup ∧
      p.globals.sites g = Distinct.append [] (p.arena.registered p.arena.size path) := by
  have hground : p.Grounded := hp.grounded
  have hid : p.Identified p.arena.size := hp.sound.identified
  have hlink : p.Linked p.arena.size (p.arena.registered p.arena.size) := hp.sound.linked (clear_of_offFields hoff)
  refine ⟨fun d e owner owner' key key' hd hkey he hkey' => ?_, fun d e path path' hd he => ?_, fun path g hat => ?_⟩
  · have hholds : ∀ d owner key, p.arena.OwnedBy d owner → p.arena.key? d = some key →
        p.identities.Holds d owner key ∧ key.index < p.interner.size := by
      intro d owner key hown hk
      obtain ⟨base, -, hb, -⟩ := id hown
      obtain ⟨kind, hkind, -⟩ := Option.bind_eq_some_iff.1 hb
      exact ⟨hid.owned d (Arena.index_lt_of_kind? hkind) owner key hown hk, hground.stored_key hb hk⟩
    have hfield : ¬ p.arena.IsField d := by
      obtain ⟨base, -, hb, -⟩ := id hd
      exact Arena.not_field_of_base? hb
    obtain ⟨hd', hs⟩ := hholds d owner key hd hkey
    obtain ⟨he', hs'⟩ := hholds e owner' key' he hkey'
    rw [Interner.text_inj hground.texts hs hs']
    exact hid.group_eq_iff hd' he' hfield
  · have hstands : ∀ d path, p.arena.Path d path → ∃ g, p.arena.global? d = some g ∧ p.globals.at? path = some g := by
      intro d path hpath
      obtain ⟨hlt, hfield⟩ := hpath.not_field
      exact (hlink.paths d hlt hfield path).1 hpath
    obtain ⟨g, hg, hat⟩ := hstands d path hd
    obtain ⟨g', hg', hat'⟩ := hstands e path' he
    refine ⟨g, hat, hg, ?_⟩
    rw [Interner.map_text_inj hground.texts (he.stored hground) (hd.stored hground), hg', Option.some.injEq]
    constructor
    · rintro rfl
      exact Registry.at?_injective hlink.lists.labelled hat' hat
    · rintro rfl
      rw [hat'] at hat
      exact Option.some.inj hat
  · have hsites := hlink.lists.sites path
    rw [Registry.sitesAt, hat] at hsites
    dsimp only at hsites
    refine ⟨?_, hsites⟩
    rw [hsites]
    exact Distinct.nodup_append List.nodup_nil _

/-- `local t; (t).a; t.a = 1; G = { k = 1 }; (G)["k"] = 1` -/
def sampleNames : Program :=
  (empty.build [.localVar "t" none, .getLocal ⟨0⟩, .paren ⟨1⟩, .getField ⟨2⟩ "a", .integer 1, .setField ⟨0⟩ "a" ⟨4⟩,
    .table [("k", ⟨4⟩)], .setGlobal "G" ⟨7⟩, .getGlobal "G", .paren ⟨9⟩, .setIndex ⟨10⟩ (some "k") ⟨4⟩]).2

/-- The two accesses on `t` share an identity, though one reads it in parentheses, and `G.k` has two sites: the field of the
table, and then the assignment. -/
theorem names_exactly_sample : sampleNames.arena.OffFields ∧
    sampleNames.identities.group ⟨3⟩ = sampleNames.identities.group ⟨5⟩ ∧
    ∃ g, sampleNames.arena.global? ⟨11⟩ = some g ∧ sampleNames.globals.sites g = [⟨6⟩, ⟨11⟩] ∧
      sampleNames.globals.sites g = Distinct.append [] (sampleNames.arena.registered sampleNames.arena.size [⟨4⟩, ⟨3⟩]) := by
  have hbuilt : sampleNames.Built := ⟨_, .inl rfl⟩
  have hoff : sampleNames.arena.OffFields := by decide +kernel
  obtain ⟨hgroups, hpaths, hsites⟩ := Built.names_exactly hbuilt hoff
  have hlocal : sampleNames.arena.kind? ⟨1⟩ = some (.getLocal ⟨0⟩) := by decide +kernel
  have htable : sampleNames.arena.kind? ⟨0⟩ = some (.localVar ⟨1⟩ .plain none [⟨1⟩]) := by decide +kernel
  have hglobal : sampleNames.arena.kind? ⟨9⟩ = some (.getGlobal ⟨4⟩) := by decide +kernel
  have hread : sampleNames.arena.OwnedBy ⟨3⟩ ⟨0⟩ :=
    ⟨⟨2⟩, ⟨1⟩, by decide +kernel, .paren (by decide) (by decide +kernel) (.done (by decide) hlocal (by simp)), .inr hlocal⟩
  have hassign : sampleNames.arena.OwnedBy ⟨5⟩ ⟨0⟩ :=
    ⟨⟨0⟩, ⟨0⟩, by decide +kernel, .done (by decide) htable (by simp), .inl ⟨⟨_, _, _, _, htable⟩, rfl⟩⟩
  have hbase : sampleNames.arena.Strips 11 ⟨10⟩ ⟨9⟩ :=
    .paren (by decide) (by decide +kernel) (.done (by decide) hglobal (by simp))
  have hpath : sampleNames.arena.Path ⟨11⟩ ([⟨4⟩] ++ [⟨3⟩]) :=
    .member (by decide +kernel) (by decide +kernel) hbase (.read hglobal)
  refine ⟨hoff, ?_, ?_⟩
  · exact (hgroups _ _ _ _ ⟨2⟩ ⟨2⟩ hread (by decide +kernel) hassign (by decide +kernel)).2.2 ⟨rfl, rfl⟩
  · obtain ⟨g, hat, hg, -⟩ := hpaths _ _ _ _ hpath hpath
    have hone : sampleNames.arena.global? ⟨11⟩ = some ⟨1⟩ := by decide +kernel
    obtain rfl : g = ⟨1⟩ := Option.some.inj (hg.symm.trans hone)
    exact ⟨⟨1⟩, hone, by decide +kernel, (hsites _ _ hat).2⟩

end Program

end LuaInfer
